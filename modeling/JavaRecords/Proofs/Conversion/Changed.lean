import Mathlib.Data.Set.Finite.Lemmas
import JavaRecords.Cli.Convert
import JavaRecords.Proofs.Conversion.Code

set_option autoImplicit false

namespace JavaRecords

/-- Words that are the same up to the keyword of a class, where the others have that of a record. -/
def Diverges (words others : List Text) : Prop :=
  ∃ common rest more, words = common ++ "class".toList :: rest ∧
    others = common ++ "record".toList :: more

namespace Diverges

theorem ne {words others : List Text} (diverges : Diverges words others) : words ≠ others := by
  obtain ⟨common, rest, more, rfl, rfl⟩ := diverges
  intro same
  have keywords := List.append_cancel_left same
  rw [List.cons.injEq] at keywords
  exact absurd keywords.1 (by decide)

theorem append_left {words others : List Text} (diverges : Diverges words others)
    (front : List Text) : Diverges (front ++ words) (front ++ others) := by
  obtain ⟨common, rest, more, rfl, rfl⟩ := diverges
  exact ⟨front ++ common, rest, more, by simp, by simp⟩

theorem append_right {words others : List Text} (diverges : Diverges words others)
    (left right : List Text) : Diverges (words ++ left) (others ++ right) := by
  obtain ⟨common, rest, more, rfl, rfl⟩ := diverges
  exact ⟨common, rest ++ left, more ++ right, by simp, by simp⟩

end Diverges

namespace Code

theorem map_text_words (code : List CodeToken) :
    (words code).map Word.text = code.map CodeToken.text := by
  cases code with
  | nil => rfl
  | cons first rest =>
      rw [words, List.map_cons, List.map_map, List.map_cons]
      rfl

theorem code_flat {code : List CodeToken} (bound : Bound code) :
    Token.code (flat code) = code.map CodeToken.text := by
  rw [← Token.map_text_found [], found_flat bound, List.map_map]
  rfl

theorem code_run {code : List CodeToken} (bound : Bound code) :
    Token.code (run code) = code.map CodeToken.text := by
  rw [← Token.map_text_found [], Word.map_text_of_fits (fits_words_run bound), map_text_words]

/-- The words of the modifiers of a class. -/
theorem map_text_headerPrefix {taken : List CodeToken} {keyword : CodeToken} {tail : Text}
    (chain : Token.Chain (flat (taken ++ [keyword])) tail) (bound : Bound (taken ++ [keyword]))
    (isClass : keyword.isWord "class" = true) :
    (headerPrefix taken (some keyword)).words.map Word.text = taken.map CodeToken.text := by
  obtain ⟨space, blank, same, alone, _⟩ := exists_headerPrefix chain isClass
  rw [same, Text.words_spell alone blank, Word.map_text_headless, Token.map_text_found]
  cases taken with
  | nil => rfl
  | cons first rest =>
      obtain ⟨boundTaken, boundKeyword⟩ := Bound.append.mp bound
      have comments := (boundKeyword keyword List.mem_cons_self).comments
      rw [modifierTokens, if_neg (by simp), Token.code_append, Token.code_of_comments comments,
        List.append_nil, code_run boundTaken]

end Code

namespace ClassLayout

/-- The words of a class part from those of a record after the modifiers. -/
theorem diverges {piece : Piece} {shape : ClassShape} (layout : ClassLayout piece shape)
    {tail : Text} (chain : Token.Chain (Code.flat piece.tokens) tail)
    (bound : Code.Bound piece.tokens) (more : List Text) :
    Diverges (piece.tokens.map CodeToken.text)
      (shape.headerPrefix.words.map Word.text ++ "record".toList :: more) := by
  have inside : layout.taken ++ [layout.keyword] <:+: piece.tokens := by
    rw [layout.tokens]
    exact ⟨[], layout.name :: (layout.params ++ (shape.clauses ++
      shape.opening :: (shape.inside ++ [shape.closing]))), by simp⟩
  obtain ⟨_, chainFront⟩ := Code.chain_of_infix chain inside
  have boundFront := fun token listed => bound token (inside.subset listed)
  have modifiers := Code.map_text_headerPrefix chainFront boundFront layout.isClass
  have keyword : layout.keyword.text = "class".toList := by
    have isClass := layout.isClass
    simp only [CodeToken.isWord, Token.isWord, Bool.and_eq_true, beq_iff_eq] at isClass
    exact isClass.2
  refine ⟨layout.taken.map CodeToken.text, (layout.name :: (layout.params ++ (shape.clauses ++
    shape.opening :: (shape.inside ++ [shape.closing])))).map CodeToken.text, more, ?_, ?_⟩
  · rw [layout.tokens, List.map_append, List.map_cons, keyword]
  · rw [layout.headerPrefix, modifiers]

end ClassLayout

namespace Outline

/-- The words of the tokens of the declarations. -/
def texts (outline : Outline) : List Text :=
  (outline.pieces.flatMap Piece.tokens).map CodeToken.text

theorem texts_cons {outline rest : Outline} {piece : Piece}
    (pieces : outline.pieces = piece :: rest.pieces) :
    outline.texts = piece.tokens.map CodeToken.text ++ rest.texts := by
  simp [texts, pieces]

section

variable {source : Text} {tree : SyntaxTree} {tail : List Token} {indent : Text} {offset : Nat}
  {site : Site} {shape : ClassShape} {members rest : Outline}

theorem ClassInBlock.diverges {record : RecordDecl}
    (block : ClassInBlock source tree tail indent offset site shape members rest)
    (converted : tree.printing.record? site.id = some record) :
    Diverges (site.piece.tokens.map CodeToken.text)
      ((classWords tree.printing site shape (members.entries tree.printing)).map Word.text) := by
  obtain ⟨package, found⟩ := block.found
  obtain ⟨layout⟩ := block.layout
  obtain ⟨after, chain⟩ := block.chain
  obtain ⟨replacement, chosen, rfl⟩ := Option.map_eq_some_iff.mp converted
  obtain ⟨_, _, _, made⟩ :=
    SyntaxTree.record_of_replacement chosen (SyntaxTree.class?_of_node? found)
  have header : replacement.record.headerPrefix = shape.headerPrefix := by
    rw [made]
    rfl
  rw [classWords, converted]
  simp only [RecordDecl.headerWords, header, List.map_append, List.map_cons, List.append_assoc,
    List.cons_append, Word.text_name]
  exact layout.diverges chain block.bound _

/-- A class that stays is written with the words of its header, its members and its last brace. -/
theorem ClassInBlock.texts_kept
    (block : ClassInBlock source tree tail indent offset site shape members rest)
    (kept : tree.printing.record? site.id = none) :
    site.piece.tokens.map CodeToken.text =
        (site.front shape).map CodeToken.text ++ (members.texts ++ [['}']]) ∧
      (classWords tree.printing site shape (members.entries tree.printing)).map Word.text =
        (site.front shape).map CodeToken.text ++
          ((members.words tree.printing).map Word.text ++ [['}']]) := by
  obtain ⟨layout⟩ := block.layout
  have closing : shape.closing.text = ['}'] := (ClassLayout.isPunct_text layout.closing).2
  constructor
  · rw [texts, block.inside, block.body.tokens]
    simp [closing]
  · simp [classWords, kept, Code.map_text_words, Outline.words, Word.text_mark]

end

/-- The words of declarations before and after a conversion: they are the same if none of the
declarations is converted, and otherwise they part at the first class that is. -/
theorem texts_cases {source : Text} {tree : SyntaxTree} {tail : List Token} {indent : Text}
    {offset : Nat} {outline : Outline} (block : outline.InBlock source tree tail indent offset) :
    (outline.patches tree.printing = [] ∧
        (outline.words tree.printing).map Word.text = outline.texts) ∨
      Diverges outline.texts ((outline.words tree.printing).map Word.text) := by
  induction outline generalizing tail indent offset with
  | nil => exact .inl ⟨rfl, rfl⟩
  | leaf site node rest ih =>
      rw [texts_cons rfl, words_leaf, List.map_append, Code.map_text_words]
      rcases ih block.leaf.rest with ⟨none, same⟩ | diverges
      · exact .inl ⟨none, by rw [same]⟩
      · exact .inr (diverges.append_left _)
  | type site shape members rest ihMembers ihRest =>
      have own := block.class
      rw [texts_cons rfl, words_type, List.map_append]
      cases converted : tree.printing.record? site.id with
      | some record => exact .inr ((own.diverges converted).append_right _ _)
      | none =>
          obtain ⟨before, after⟩ := own.texts_kept converted
          rw [before, after, patches]
          simp only [converted]
          rcases ihMembers own.members with ⟨none, same⟩ | diverges
          · rw [none, same, List.nil_append]
            rcases ihRest own.rest with ⟨none, same⟩ | diverges
            · exact .inl ⟨none, by rw [same]⟩
            · exact .inr (diverges.append_left _)
          · exact .inr (((diverges.append_right _ _).append_left _).append_right _ _)

end Outline

namespace SyntaxTree

theorem isChanged_convertUnit_iff (tree : SyntaxTree) :
    tree.convertUnit.isChanged = true ↔ ∃ id record, tree.convertUnit.Converts id record := by
  simp only [UnitConversion.isChanged, decide_eq_true_eq]
  constructor
  · intro changed
    obtain ⟨report, listed⟩ := List.exists_mem_of_length_pos changed
    obtain ⟨isReport, isConverted⟩ := List.mem_filter.mp listed
    cases outcome : report.outcome with
    | unchanged reason => rw [outcome] at isConverted; cases isConverted
    | failed violation => rw [outcome] at isConverted; cases isConverted
    | converted record components elided retained =>
        exact ⟨report.id, record, report, isReport, rfl, components, elided, retained, outcome⟩
  · rintro ⟨id, record, report, isReport, _, components, elided, retained, outcome⟩
    exact List.length_pos_of_mem (List.mem_filter.mpr ⟨isReport, by rw [outcome]; rfl⟩)

/-- An eligible class is converted if a type of the unit leads to it through static member
classes. -/
theorem converts_of_isEligible {tree : SyntaxTree} {start id : NodeId}
    (listed : start ∈ tree.unit.types) (path : Relation.ReflTransGen tree.HoldsStatic start id)
    (eligible : tree.isEligible id = true) :
    tree.convertUnit.Converts id (tree.rebuild.image id) := by
  obtain ⟨replacement, chosen⟩ := (tree.judge_replaces_iff id).mpr eligible
  obtain ⟨decl, _, present, _⟩ := (tree.isEligible_iff_view id).mp eligible
  have target : id ∈ tree.targets :=
    (tree.mem_targets_iff id).mpr ⟨⟨start, listed, path⟩, .inl (by rw [present]; rfl)⟩
  have replaced := (tree.lookup_replacements id replacement).mpr ⟨target, chosen⟩
  exact (tree.converts_iff id _).mpr ⟨by rw [replaced]; rfl, rfl⟩

/-- An eligible class that stands in no other is converted. -/
theorem isChanged_of_isEligible {tree : SyntaxTree} {id : NodeId} (listed : id ∈ tree.unit.types)
    (eligible : tree.isEligible id = true) : tree.convertUnit.isChanged = true :=
  tree.isChanged_convertUnit_iff.mpr ⟨id, _, converts_of_isEligible listed .refl eligible⟩

end SyntaxTree

namespace ParsedUnit

variable {source : Text} {tree : SyntaxTree} (unit : ParsedUnit source tree)

include unit

theorem code_source : Text.code source = unit.outline.texts := by
  obtain ⟨bound, comments⟩ := Code.bound_ofTokens unit.tokens
  have split := congrArg Token.code (Code.flat_ofTokens unit.tokens)
  rw [Token.code_append, Token.code_of_comments comments, List.append_nil,
    Code.code_flat bound] at split
  rw [Text.code, unit.lexed, ← split, Outline.texts, unit.code_eq]

/-- Where a class is converted, one that is not inside another is. -/
theorem exists_outermost {id record : NodeId} (converts : tree.convertUnit.Converts id record) :
    ∃ outer image, tree.convertUnit.Outermost tree outer image := by
  have isClass : ∀ other ∈ {id | ∃ record, tree.convertUnit.Converts id record},
      other < tree.nodes.size := by
    rintro other ⟨image, convertsOther⟩
    obtain ⟨replacement, chosen⟩ :=
      Option.isSome_iff_exists.mp ((tree.converts_iff _ _).mp convertsOther).1
    obtain ⟨decl, present⟩ := SyntaxTree.class?_of_replacement chosen
    exact SyntaxTree.lt_of_class? present
  -- The members of a class stand before it, so the last class that is converted is in no other.
  obtain ⟨outer, ⟨image, convertsOuter⟩, last⟩ := Set.exists_max_image
    {id | ∃ record, tree.convertUnit.Converts id record} (fun other => other)
    ((Set.finite_lt_nat tree.nodes.size).subset isClass) ⟨id, record, converts⟩
  refine ⟨outer, image, convertsOuter, fun other another convertsOther path => ?_⟩
  have inside := SyntaxTree.lt_of_transGen_holds unit.holds_lt path
  exact Nat.not_lt.mpr (last other ⟨another, convertsOther⟩) inside

/-- A class that is converted is printed in the place of a class of the source: its own, or that of
a class around it that is converted too. -/
theorem patches_ne_nil (changed : tree.convertUnit.isChanged = true) :
    unit.outline.patches tree.printing ≠ [] := by
  obtain ⟨id, record, converts⟩ := tree.isChanged_convertUnit_iff.mp changed
  obtain ⟨outer, image, outermost⟩ := unit.exists_outermost converts
  obtain ⟨patch, isPatch, _⟩ := (unit.mem_patches_iff outer image).mpr outermost
  exact List.ne_nil_of_mem isPatch

/-- A source with a converted class does not stay as it is. -/
theorem printed_ne (changed : tree.convertUnit.isChanged = true) :
    unit.outline.printed tree.printing ++ unit.rest ≠ source := by
  intro same
  rcases unit.outline.texts_cases unit.inBlock with ⟨none, _⟩ | diverges
  · exact unit.patches_ne_nil changed none
  · obtain ⟨_, fits⟩ := unit.spells_convertUnit.lexFrom_eq 0
    have printed : Text.code (unit.outline.printed tree.printing ++ unit.rest) =
        (unit.outline.words tree.printing).map Word.text := by
      rw [← Word.map_text_of_fits fits, Token.map_text_found]
      rfl
    rw [same, unit.code_source] at printed
    exact diverges.ne printed

end ParsedUnit

theorem SourceConversion.isChanged_eq (tree : SyntaxTree) (output : Text) :
    (SourceConversion.mk output tree.convertUnit.reports).isChanged =
      tree.convertUnit.isChanged := by
  rw [Bool.eq_iff_iff]
  simp [SourceConversion.isChanged, UnitConversion.isChanged, UnitConversion.converted,
    convertedCount, List.length_pos_iff, List.filter_eq_nil_iff]

theorem output_ne_of_convertSource {source : Text} {conversion : SourceConversion}
    (converts : convertSource source = .ok conversion) :
    conversion.isChanged = true ↔ conversion.output ≠ source := by
  obtain ⟨tree, unit, _, rfl⟩ := ParsedUnit.exists_of_convertSource converts
  rw [SourceConversion.isChanged_eq]
  refine ⟨unit.printed_ne, fun differs => ?_⟩
  rw [← Bool.not_eq_false]
  exact fun unchanged => differs (unit.print_of_unchanged unchanged)

namespace FileConversion

/-- The text that a conversion leaves to write, if it is not that of the file. -/
def difference? (file : FileConversion) : Option Text :=
  match file.result with
  | .ok conversion => if conversion.output = file.source then none else some conversion.output
  | .error _ => none

end FileConversion

theorem output?_eq_difference? {files : List SourceFile} {file : FileConversion}
    (listed : file ∈ convertFiles files) : file.output? = file.difference? := by
  obtain ⟨input, _, rfl⟩ := List.mem_map.mp listed
  unfold FileConversion.output? FileConversion.difference?
  cases converts : convertSource input.text with
  | error error => rfl
  | ok conversion =>
      have changed := output_ne_of_convertSource converts
      by_cases same : conversion.output = input.text
      · have unchanged : conversion.isChanged = false := by
          simpa [same] using changed
        simp [same, unchanged]
      · simp [same, changed.mpr same]

theorem World.files_of_convert {world : World} {path : Text} {config : Option Text}
    {conversions : Conversions} (converts : world.convert path config = .ok conversions) :
    ∃ sources, conversions.files = convertFiles sources := by
  unfold World.convert at converts
  dsimp only at converts
  split at converts
  · cases converts
  · split at converts
    · cases converts
    · cases converts
      exact ⟨_, rfl⟩

/-- A conversion is reported as changed exactly if its text is not that of the source. So a file has
a text to write exactly if that text is another one, and a run writes these texts and no others. -/
theorem isChanged_iff_output_ne :
    (∀ source conversion, convertSource source = .ok conversion →
      (conversion.isChanged = true ↔ conversion.output ≠ source)) ∧
    (∀ files, ∀ file ∈ convertFiles files, ∀ text,
      file.output? = some text ↔ ∃ conversion, file.result = .ok conversion ∧
        conversion.output = text ∧ text ≠ file.source) ∧
    (∀ (world : World) path json config conversions,
      world.convert path config = .ok conversions →
      (world.runConvert path false json config).writes = conversions.files.filterMap fun file =>
        file.difference?.map fun output => (file.path, output)) := by
  refine ⟨fun _ _ => output_ne_of_convertSource, ?_, ?_⟩
  · intro files file listed text
    rw [output?_eq_difference? listed, FileConversion.difference?]
    cases file.result with
    | error error => simp
    | ok conversion =>
        by_cases same : conversion.output = file.source
        · simp [same]
          grind
        · simp [same]
          grind
  · intro world path json config conversions converts
    obtain ⟨sources, made⟩ := world.files_of_convert converts
    rw [World.runConvert, converts]
    dsimp only
    rw [if_neg (by decide)]
    apply List.filterMap_congr
    intro file listed
    rw [made] at listed
    rw [output?_eq_difference? listed]

theorem pointSource_output_ne :
    ∃ conversion, convertSource pointSource = .ok conversion ∧ conversion.isChanged = true ∧
      conversion.output ≠ pointSource ∧
      (convertFiles [⟨"P.java".toList, pointSource⟩]).map FileConversion.output? =
        [some conversion.output] := by
  obtain ⟨tree, parsed, checked⟩ := exists_ok_of_any
    (show (parse pointSource).toOption.any (fun tree =>
      tree.isEligible 2 && tree.unit.types.contains 2) = true by decide +kernel)
  obtain ⟨eligible, listed⟩ := Bool.and_eq_true_iff.mp checked
  obtain ⟨flagged, written, _⟩ := isChanged_iff_output_ne
  have changed := SyntaxTree.isChanged_of_isEligible (List.contains_iff_mem.mp listed) eligible
  have converts := convertSource_eq_ok_iff.mpr ⟨tree, parsed, rfl⟩
  have differs := (flagged _ _ converts).mp
    ((SourceConversion.isChanged_eq tree _).trans changed)
  refine ⟨_, converts, (flagged _ _ converts).mpr differs, differs, ?_⟩
  rw [convertFiles, List.map_singleton, List.map_singleton]
  exact congrArg (fun output => [output])
    ((written [⟨"P.java".toList, pointSource⟩] _ List.mem_cons_self _).mpr
      ⟨_, converts, rfl, differs⟩)

end JavaRecords
