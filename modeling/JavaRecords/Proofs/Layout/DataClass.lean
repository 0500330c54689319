import JavaRecords.Proofs.Layout.JavaType

set_option autoImplicit false

namespace JavaRecords

/-- A field of a data class, which is a component of its record. -/
structure DataField where
  ty : JavaType
  name : Text
  /-- Whether the class has an accessor for the field. -/
  accessor : Bool

/-- A data class: its fields in order, and whether a comment stands before it. -/
structure DataClass where
  name : Text
  fields : List DataField
  commented : Bool

/-- Whether a word can name a variable or a class. -/
def Text.isFreeName (text : Text) : Bool := text.isName && !isKeyword text

/-- A data class whose names can be names, and whose fields have different ones. -/
structure DataClass.Proper (data : DataClass) : Prop where
  name : data.name.isFreeName = true
  notSealed : data.name ≠ "sealed".toList
  nonempty : data.fields ≠ []
  fieldNames : ∀ field ∈ data.fields, field.name.isFreeName = true
  types : ∀ field ∈ data.fields, field.ty.isProper = true
  distinct : (data.fields.map DataField.name).Nodup

namespace DataField

def parameter (field : DataField) : Text := field.ty.text ++ [' '] ++ field.name

def declaration (field : DataField) : Text :=
  "    private final ".toList ++ field.parameter ++ ";\n".toList

/-- The line of the constructor that assigns a field. -/
def assignment (field : DataField) : Text :=
  "        this.".toList ++ field.name ++ " = ".toList ++ field.name ++ ";\n".toList

def accessorLines (field : DataField) : Text :=
  "\n    public ".toList ++ field.parameter ++ "() \x7b\n        return ".toList ++ field.name
    ++ ";\n    \x7d\n".toList

end DataField

namespace DataClass

/-- The line before a class that has a comment. -/
def header (data : DataClass) : Text :=
  if data.commented then "/** generated */\n".toList else []

/-- The parameters of the constructor, with commas between them. -/
def parameters (data : DataClass) : Text :=
  Text.join [',', ' '] (data.fields.map DataField.parameter)

def source (data : DataClass) : Text :=
  data.header ++ "public class ".toList ++ data.name ++ " \x7b\n".toList
    ++ data.fields.flatMap DataField.declaration
    ++ "\n    ".toList ++ data.name ++ ['('] ++ data.parameters ++ ") \x7b\n".toList
    ++ data.fields.flatMap DataField.assignment ++ "    \x7d\n".toList
    ++ (data.fields.filter DataField.accessor).flatMap DataField.accessorLines ++ "\x7d\n".toList

def record (data : DataClass) : Text :=
  data.header ++ "public record ".toList ++ data.name ++ ['('] ++ data.parameters
    ++ ") \x7b\n\x7d\n".toList

end DataClass

open Token (word mark)

namespace DataField

def fieldTokens (field : DataField) : List Token :=
  word "\n    ".toList "private".toList :: word [' '] "final".toList ::
    (field.ty.tokens [' '] ++ [word [' '] field.name, mark [] ';'])

/-- A parameter that stands after `space`. -/
def paramTokens (space : Text) (field : DataField) : List Token :=
  field.ty.tokens space ++ [word [' '] field.name]

/-- The parameters after the first, each after a comma. -/
def furtherTokens (fields : List DataField) : List Token :=
  fields.flatMap fun field => mark [] ',' :: field.paramTokens [' ']

def assignmentTokens (field : DataField) : List Token :=
  [word "\n        ".toList "this".toList, mark [] '.', word [] field.name, mark [' '] '=',
    word [' '] field.name, mark [] ';']

def returnTokens (field : DataField) : List Token :=
  [word "\n        ".toList "return".toList, word [' '] field.name, mark [] ';']

end DataField

/-- A block in braces, of which the closing one stands on a line of its own. -/
def blockTokens (inside : List Token) : List Token :=
  mark [' '] '\x7b' :: (inside ++ [mark "\n    ".toList '\x7d'])

namespace DataField

def accessorTokens (field : DataField) : List Token :=
  word "\n\n    ".toList "public".toList :: (field.ty.tokens [' '] ++ word [' '] field.name ::
    mark [] '(' :: mark [] ')' :: blockTokens field.returnTokens)

end DataField

namespace DataClass

def paramTokens : List DataField → List Token
  | [] => []
  | first :: rest => first.paramTokens [] ++ DataField.furtherTokens rest

def constructorTokens (data : DataClass) : List Token :=
  word "\n\n    ".toList data.name :: mark [] '(' :: (paramTokens data.fields ++ mark [] ')' ::
    blockTokens (data.fields.flatMap DataField.assignmentTokens))

def memberTokens (data : DataClass) : List (List Token) :=
  data.fields.map DataField.fieldTokens ++
    data.constructorTokens :: (data.fields.filter DataField.accessor).map DataField.accessorTokens

def classTokens (data : DataClass) (space : Text) : List Token :=
  word space "public".toList :: word [' '] "class".toList :: word [' '] data.name ::
    mark [' '] '\x7b' :: (data.memberTokens.flatten ++ [mark ['\n'] '\x7d'])

/-- The comment before a data class. -/
def comment : Token := ⟨.docComment, [], "/** generated */".toList, 0⟩

def comments (data : DataClass) : List Token := if data.commented then [comment] else []

def space (data : DataClass) : Text := if data.commented then ['\n'] else []

def tokens (data : DataClass) : List Token := data.comments ++ data.classTokens data.space

end DataClass

open Token (spell)

/-- Lines with the line break before them are the lines with the line break after them, moved on by
one line break. -/
theorem Text.cons_flatMap_lines {α : Type} {line written : α → Text}
    (each : ∀ item, '\n' :: line item = written item ++ ['\n']) (items : List α) (rest : Text) :
    '\n' :: (items.flatMap line ++ rest) = items.flatMap written ++ '\n' :: rest := by
  induction items with
  | nil => rfl
  | cons item items ih =>
      rw [List.flatMap_cons, List.flatMap_cons, List.append_assoc, ← List.cons_append, each,
        List.append_assoc, List.singleton_append, ih, List.append_assoc]

namespace DataField

theorem spell_paramTokens (space : Text) (field : DataField) :
    spell (field.paramTokens space) = space ++ field.parameter := by
  simp [paramTokens, parameter, JavaType.spell_tokens]

theorem spell_fieldTokens (field : DataField) :
    '\n' :: field.declaration = spell field.fieldTokens ++ ['\n'] := by
  unfold declaration
  simp [parameter, fieldTokens, JavaType.spell_tokens]

theorem spell_assignmentTokens (field : DataField) :
    '\n' :: field.assignment = spell field.assignmentTokens ++ ['\n'] := by
  unfold assignment
  simp [assignmentTokens]

theorem spell_accessorTokens (field : DataField) :
    '\n' :: field.accessorLines = spell field.accessorTokens ++ ['\n'] := by
  unfold accessorLines
  simp [parameter, accessorTokens, returnTokens, blockTokens, JavaType.spell_tokens]

theorem spell_furtherTokens (first : Text) (fields : List DataField) :
    first ++ spell (furtherTokens fields) =
      Text.join [',', ' '] (first :: fields.map parameter) := by
  induction fields generalizing first with
  | nil => simp [furtherTokens, Text.join]
  | cons field rest ih =>
      have joined : Text.join [',', ' '] (first :: (field :: rest).map parameter) =
          first ++ [',', ' '] ++ Text.join [',', ' '] (field.parameter :: rest.map parameter) := rfl
      rw [joined, ← ih field.parameter]
      simp [furtherTokens, spell_paramTokens]

end DataField

namespace DataClass

theorem spell_flatMap {α : Type} (items : List α) (tokens : α → List Token) :
    spell (items.flatMap tokens) = items.flatMap fun item => spell (tokens item) := by
  induction items with
  | nil => rfl
  | cons item rest ih => rw [List.flatMap_cons, List.flatMap_cons, Token.spell_append, ih]

theorem spell_paramTokens (fields : List DataField) :
    spell (paramTokens fields) = Text.join [',', ' '] (fields.map DataField.parameter) := by
  cases fields with
  | nil => rfl
  | cons first rest =>
      rw [paramTokens, Token.spell_append, DataField.spell_paramTokens, List.nil_append,
        DataField.spell_furtherTokens, List.map_cons]

theorem spell_memberTokens (data : DataClass) : spell data.memberTokens.flatten =
    data.fields.flatMap (fun field => spell field.fieldTokens) ++ spell data.constructorTokens ++
      (data.fields.filter DataField.accessor).flatMap fun field => spell field.accessorTokens := by
  simp [memberTokens, ← List.flatMap_def, spell_flatMap]

/-- The tokens of a data class spell its source up to the last line break. -/
theorem spell_tokens (data : DataClass) : spell data.tokens ++ ['\n'] = data.source := by
  have fields := Text.cons_flatMap_lines DataField.spell_fieldTokens data.fields
  have assignments := Text.cons_flatMap_lines DataField.spell_assignmentTokens data.fields
  have accessors := Text.cons_flatMap_lines DataField.spell_accessorTokens
    (data.fields.filter DataField.accessor)
  have written (space : Text) : spell (data.classTokens space) ++ ['\n'] =
      space ++ "public class ".toList ++ data.name ++ " \x7b\n".toList
      ++ data.fields.flatMap DataField.declaration
      ++ "\n    ".toList ++ data.name ++ ['('] ++ data.parameters ++ ") \x7b\n".toList
      ++ data.fields.flatMap DataField.assignment ++ "    \x7d\n".toList
      ++ (data.fields.filter DataField.accessor).flatMap DataField.accessorLines
      ++ "\x7d\n".toList := by
    simp [classTokens, spell_memberTokens, constructorTokens, blockTokens, spell_flatMap,
      spell_paramTokens, parameters, fields, assignments, accessors]
  rw [tokens, Token.spell_append, List.append_assoc, written]
  unfold source header comments space
  split <;> simp [comment]

end DataClass

theorem Text.isName_of_isFreeName {name : Text} (free : name.isFreeName = true) :
    name.isName = true := by
  simp only [Text.isFreeName, Bool.and_eq_true] at free
  exact free.1

theorem JavaType.isName_of_isTypeWord {name : Text} (isWord : isTypeWord name = true) :
    name.isName = true := by
  simp only [isTypeWord, Bool.and_eq_true] at isWord
  exact isWord.1.1.1

/-- A type after a character that does not continue a name. -/
theorem JavaType.ends_spell {c : Char} (free : Token.isIdentPart c = false) (space : Text)
    (ty : JavaType) (rest : List Token) (tail : Text) :
    Token.Ends (spell (ty.tokens (c :: space) ++ rest) ++ tail) := by
  rw [Token.spell_append, spell_tokens]
  exact Token.ends_cons free _

theorem sealed_block {inside : List Token} (isSealed : Token.Sealed inside) :
    Token.Sealed (blockTokens inside) := fun tail =>
  Token.chain_mark (by decide) (by decide)
    ((isSealed.append (Token.sealed_mark (by decide) (by decide))) tail)

theorem settled_block {inside : List Token} (settled : Token.Settled inside) :
    Token.Settled (blockTokens inside) :=
  (Token.settled_mark (by decide) (by decide)).append
    (settled.append (Token.settled_mark (by decide) (by decide)))

namespace DataField

variable {field : DataField} (named : field.name.isName = true)
  (typed : field.ty.isProper = true)

include named in
theorem chain_name {rest : List Token} {tail : Text} (ended : Token.Ends (spell rest ++ tail))
    (chain : Token.Chain rest tail) : Token.Chain (word [' '] field.name :: rest) tail :=
  Token.chain_word (by decide) named ended chain

include named typed in
theorem chain_paramTokens {space tail : Text} (blank : space.Blank) (ended : Token.Ends tail) :
    Token.Chain (field.paramTokens space) tail :=
  Token.chain_append.mpr ⟨field.ty.chain_tokens blank typed (Token.ends_cons (by decide) _),
    chain_name named ended trivial⟩

theorem settled_paramTokens (space : Text) (field : DataField) :
    Token.Settled (field.paramTokens space) :=
  (field.ty.settled_tokens space).append (Token.settled_word _ _)

include named typed in
theorem sealed_fieldTokens : Token.Sealed field.fieldTokens := by
  intro tail
  refine Token.chain_word (by decide) (by decide) (Token.ends_cons (by decide) _)
    (Token.chain_word (by decide) (by decide) (field.ty.ends_spell (by decide) _ _ _) ?_)
  refine Token.chain_append.mpr
    ⟨field.ty.chain_tokens (by decide) typed (Token.ends_cons (by decide) _), ?_⟩
  exact chain_name named (Token.ends_cons (by decide) _)
    (Token.chain_mark (by decide) (by decide) trivial)

theorem settled_fieldTokens (field : DataField) : Token.Settled field.fieldTokens :=
  (Token.settled_word _ _).append ((Token.settled_word _ _).append
    ((field.ty.settled_tokens _).append ((Token.settled_word _ _).append
      (Token.settled_mark (by decide) (by decide)))))

include named in
theorem sealed_assignmentTokens : Token.Sealed field.assignmentTokens := by
  intro tail
  refine Token.chain_word (by decide) (by decide) (Token.ends_cons (by decide) _)
    ⟨by decide, ?_, ?_⟩
  · refine Token.readsAs_dot ?_
    obtain ⟨c, rest, text, letter⟩ := Text.exists_of_isName named
    simp [text, Text.isDigit_of_isAsciiLetter letter]
  · refine Token.chain_word (by decide) named (Token.ends_cons (by decide) _)
      (Token.chain_mark (by decide) (by decide) ?_)
    exact chain_name named (Token.ends_cons (by decide) _)
      (Token.chain_mark (by decide) (by decide) trivial)

theorem settled_assignmentTokens (field : DataField) : Token.Settled field.assignmentTokens :=
  (Token.settled_word _ _).append ((Token.settled_mark (by decide) (by decide)).append
    ((Token.settled_assignment _ _ _).append (Token.settled_mark (by decide) (by decide))))

include named in
theorem sealed_returnTokens : Token.Sealed field.returnTokens := fun _ =>
  Token.chain_word (by decide) (by decide) (Token.ends_cons (by decide) _)
    (chain_name named (Token.ends_cons (by decide) _)
      (Token.chain_mark (by decide) (by decide) trivial))

theorem settled_returnTokens (field : DataField) : Token.Settled field.returnTokens :=
  (Token.settled_word _ _).append
    ((Token.settled_word _ _).append (Token.settled_mark (by decide) (by decide)))

include named typed in
theorem sealed_accessorTokens : Token.Sealed field.accessorTokens := by
  intro tail
  refine Token.chain_word (by decide) (by decide) (field.ty.ends_spell (by decide) _ _ _)
    (Token.chain_append.mpr
      ⟨field.ty.chain_tokens (by decide) typed (Token.ends_cons (by decide) _), ?_⟩)
  exact chain_name named (Token.ends_cons (by decide) _) (Token.chain_mark (by decide) (by decide)
    (Token.chain_mark (by decide) (by decide) (sealed_block (sealed_returnTokens named) _)))

theorem settled_accessorTokens (field : DataField) : Token.Settled field.accessorTokens :=
  (Token.settled_word _ _).append ((field.ty.settled_tokens _).append
    ((Token.settled_word _ _).append ((Token.settled_mark (by decide) (by decide)).append
      ((Token.settled_mark (by decide) (by decide)).append
        (settled_block field.settled_returnTokens)))))

end DataField

namespace DataClass

/-- Parameters before a parenthesis. -/
theorem chain_furtherTokens {fields : List DataField} {tail : Text}
    (named : ∀ field ∈ fields, field.name.isName = true)
    (typed : ∀ field ∈ fields, field.ty.isProper = true) (ended : Token.Ends tail) :
    Token.Chain (DataField.furtherTokens fields) tail := by
  induction fields with
  | nil => trivial
  | cons field rest ih =>
      have later := ih (fun other listed => named other (List.mem_cons_of_mem _ listed))
        (fun other listed => typed other (List.mem_cons_of_mem _ listed))
      have next : Token.Ends (spell (DataField.furtherTokens rest) ++ tail) := by
        cases rest with
        | nil => exact ended
        | cons _ _ => exact Token.ends_cons (by decide) _
      exact Token.chain_mark (by decide) (by decide) (Token.chain_append.mpr
        ⟨DataField.chain_paramTokens (named field List.mem_cons_self)
          (typed field List.mem_cons_self) (by decide) next, later⟩)

theorem chain_paramTokens {fields : List DataField} {tail : Text}
    (named : ∀ field ∈ fields, field.name.isName = true)
    (typed : ∀ field ∈ fields, field.ty.isProper = true) (ended : Token.Ends tail) :
    Token.Chain (paramTokens fields) tail := by
  cases fields with
  | nil => trivial
  | cons first rest =>
      have next : Token.Ends (spell (DataField.furtherTokens rest) ++ tail) := by
        cases rest with
        | nil => exact ended
        | cons _ _ => exact Token.ends_cons (by decide) _
      exact Token.chain_append.mpr
        ⟨DataField.chain_paramTokens (named first List.mem_cons_self)
          (typed first List.mem_cons_self) (by decide) next,
        chain_furtherTokens (fun other listed => named other (List.mem_cons_of_mem _ listed))
          (fun other listed => typed other (List.mem_cons_of_mem _ listed)) ended⟩

theorem settled_paramTokens (fields : List DataField) : Token.Settled (paramTokens fields) := by
  cases fields with
  | nil => exact Token.settled_nil
  | cons first rest =>
      exact (first.settled_paramTokens []).append (Token.settled_flatMap fun field _ =>
        (Token.settled_mark (by decide) (by decide)).append (field.settled_paramTokens _))

variable {data : DataClass} (proper : data.Proper)

include proper

theorem Proper.named (field : DataField) (listed : field ∈ data.fields) :
    field.name.isName = true :=
  Text.isName_of_isFreeName (proper.fieldNames field listed)

theorem Proper.free (field : DataField) (listed : field ∈ data.fields) :
    isKeyword field.name = false := by
  have own := proper.fieldNames field listed
  simp only [Text.isFreeName, Bool.and_eq_true, Bool.not_eq_true'] at own
  exact own.2

theorem Proper.sealed_constructorTokens : Token.Sealed data.constructorTokens := by
  intro tail
  refine Token.chain_word (by decide) (Text.isName_of_isFreeName proper.name)
    (Token.ends_cons (by decide) _) (Token.chain_mark (by decide) (by decide) ?_)
  exact Token.chain_append.mpr
    ⟨chain_paramTokens proper.named proper.types (Token.ends_cons (by decide) _),
      Token.chain_mark (by decide) (by decide)
        (sealed_block (Token.sealed_flatMap fun field listed =>
        DataField.sealed_assignmentTokens (proper.named field listed)) _)⟩

omit proper in
theorem settled_constructorTokens (data : DataClass) : Token.Settled data.constructorTokens :=
  (Token.settled_word _ _).append ((Token.settled_mark (by decide) (by decide)).append
    ((settled_paramTokens _).append ((Token.settled_mark (by decide) (by decide)).append
      (settled_block (Token.settled_flatMap fun field _ => field.settled_assignmentTokens)))))

theorem Proper.members (tokens : List Token) (listed : tokens ∈ data.memberTokens) :
    Token.Sealed tokens ∧ Token.Settled tokens := by
  simp only [memberTokens, List.mem_append, List.mem_map, List.mem_cons, List.mem_filter] at listed
  rcases listed with ⟨field, listed, rfl⟩ | rfl | ⟨field, ⟨listed, _⟩, rfl⟩
  · exact ⟨DataField.sealed_fieldTokens (proper.named field listed) (proper.types field listed),
      field.settled_fieldTokens⟩
  · exact ⟨proper.sealed_constructorTokens, data.settled_constructorTokens⟩
  · exact ⟨DataField.sealed_accessorTokens (proper.named field listed) (proper.types field listed),
      field.settled_accessorTokens⟩

theorem Proper.sealed_classTokens {space : Text} (blank : space.Blank) :
    Token.Sealed (data.classTokens space) := by
  intro tail
  refine Token.chain_word blank (by decide) (Token.ends_cons (by decide) _)
    (Token.chain_word (by decide) (by decide) (Token.ends_cons (by decide) _)
      (Token.chain_word (by decide) (Text.isName_of_isFreeName proper.name)
        (Token.ends_cons (by decide) _) (Token.chain_mark (by decide) (by decide) ?_)))
  have inside : Token.Sealed data.memberTokens.flatten := by
    rw [← List.flatMap_id]
    exact Token.sealed_flatMap fun tokens listed => (proper.members tokens listed).1
  exact (inside.append (Token.sealed_mark (by decide) (by decide))) tail

theorem Proper.settled_classTokens (space : Text) : Token.Settled (data.classTokens space) := by
  have inside : Token.Settled data.memberTokens.flatten := by
    rw [← List.flatMap_id]
    exact Token.settled_flatMap fun tokens listed => (proper.members tokens listed).2
  exact (Token.settled_word _ _).append ((Token.settled_word _ _).append
    ((Token.settled_word _ _).append ((Token.settled_mark (by decide) (by decide)).append
      (inside.append (Token.settled_mark (by decide) (by decide))))))

omit proper in
theorem readsAs_comment (rest : Text) :
    Token.ReadsAs comment.kind comment.text rest := by
  have alone : Token.ReadsAs .docComment "/** generated */".toList [] :=
    ⟨'/', "** generated */".toList, rfl, by decide, by decide +kernel⟩
  exact alone.blockComment (.inr rfl) rest

omit proper in
def code (data : DataClass) : List CodeToken :=
  Code.withComments data.comments
    (Code.laid (Text.byteSize (spell data.comments)) (data.classTokens data.space))

/-- The source of a data class is read as the tokens that were laid out. -/
theorem Proper.lexed : lexAll data.source = ⟨Token.restart 0 data.tokens, ['\n'], none⟩ := by
  rw [← data.spell_tokens]
  refine lexFrom_of_chain (Token.chain_append.mpr ⟨?_, proper.sealed_classTokens ?_ _⟩)
    (by decide) 0
  · unfold comments
    split
    · exact ⟨by decide, readsAs_comment _, trivial⟩
    · trivial
  · unfold space
    split <;> decide

theorem Proper.read : Code.read data.source = .ok ⟨data.code, []⟩ := by
  have comments : Token.restart 0 data.comments = data.comments := by
    unfold DataClass.comments
    split <;> rfl
  have isComment : ∀ comment ∈ data.comments, comment.isComment = true := by
    unfold DataClass.comments
    split <;> simp [comment, Token.isComment, TokenKind.isComment]
  rw [Code.read, lex, proper.lexed]
  dsimp only [Except.map]
  rw [tokens, Token.restart_append, comments, Nat.zero_add,
    Code.ofTokens_laid _ isComment (proper.settled_classTokens _) (List.cons_ne_nil _ _)]
  rfl

end DataClass

end JavaRecords
