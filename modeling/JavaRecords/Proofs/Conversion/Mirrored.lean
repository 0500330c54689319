import JavaRecords.Proofs.Conversion.Regular
import JavaRecords.Proofs.Conversion.Resolved

set_option autoImplicit false

namespace JavaRecords

namespace Code

def ParsesMembers (className : Text) (position : Nat) (pieces : List Piece) : Prop :=
  ∀ (scope : Scope) (block : Block) (members : Members), block.className = className →
    members.ids.length = position →
      ∃ result, addMembers scope block members none pieces = .ok result

def ParsesUnit (pieces : List Piece) : Prop :=
  ∀ (scope : Scope) (tree : SyntaxTree) (cursor : Nat) (tail : List Token),
    ∃ result, addDeclarations scope tree cursor tail none pieces = .ok result

section

variable {className : Text} {position : Nat} {piece : Piece} {rest : List Piece}

theorem parsesMembers_nil : ParsesMembers className position [] := by
  intro scope block members _ _
  exact ⟨members, by rw [addMembers]⟩

theorem ParsesMembers.node (others : ParsesMembers className (position + 1) rest)
    (shaped : ∀ source, ∃ node, memberShape className position piece source = .ok (.node node)) :
    ParsesMembers className position (piece :: rest) := by
  rintro scope block members rfl rfl
  obtain ⟨node, isNode⟩ := shaped
    (place scope.source members.cursor piece (following block.tail rest) block.indent).source
  rw [addMembers]
  split
  · rename_i failed
    cases failed.symm.trans isNode
  · exact others scope block _ rfl (by simp)
  · rename_i isClass
    cases isClass.symm.trans isNode

theorem ParsesMembers.type {shape : ClassShape} {inner : List Piece}
    (others : ParsesMembers className (position + 1) rest) (declares : Declares piece shape)
    (inside : pieces declarationRule shape.inside = ⟨some [], inner, none⟩)
    (body : ParsesMembers shape.name 0 inner) :
    ParsesMembers className position (piece :: rest) := by
  rintro scope block members rfl rfl
  have isClass := fun source =>
    (memberShape_eq_classBody_iff block.className members.ids.length piece source shape).mpr
      declares
  rw [addMembers]
  split
  · rename_i failed
    cases failed.symm.trans (isClass _)
  · rename_i isNode
    cases isNode.symm.trans (isClass _)
  · rename_i same
    cases same.symm.trans (isClass _)
    rw [inside]
    obtain ⟨nested, parsed⟩ := body scope ⟨shape.name, (place scope.source members.cursor piece
      (following block.tail rest) block.indent).source.indent ++ indentUnit, shape.closing.comments⟩
      ⟨members.tree, [], bodyStart shape⟩ rfl rfl
    dsimp only
    rw [parsed]
    exact others scope block _ rfl (by simp)

theorem parsesUnit_nil : ParsesUnit [] := by
  intro scope tree cursor tail
  exact ⟨tree, rfl⟩

/-- A package and an import can always be parsed. -/
theorem ParsesUnit.cons (others : ParsesUnit rest)
    (type : piece.first.isWord "package" = false → piece.first.isWord "import" = false →
      ∀ scope tree placed, ∃ added, addType scope tree piece placed = .ok added) :
    ParsesUnit (piece :: rest) := by
  intro scope tree cursor tail
  rw [addDeclarations]
  dsimp only
  split
  · exact others _ _ _ _
  · split
    · exact others _ _ _ _
    · rename_i noPackage noImport
      obtain ⟨added, isAdded⟩ := type (Bool.eq_false_iff.mpr noPackage)
        (Bool.eq_false_iff.mpr noImport) scope tree
        (place scope.source cursor piece (following tail rest) [])
      rw [isAdded]
      exact others _ _ _ _

theorem addType_of_keeps {kind : TextualKind} {name : Option Text} (kept : Keeps piece kind name)
    (scope : Scope) (tree : SyntaxTree) (placed : Placed) :
    ∃ added, addType scope tree piece placed = .ok added := by
  rcases kept with ⟨empty, _⟩ | ⟨filled, run, read, shaped⟩
  · simp [addType, empty]
  · simp [addType, filled, read, shaped, bind, Except.bind, pure, Except.pure]

theorem addType_of_declares {shape : ClassShape} {inner : List Piece}
    (declares : Declares piece shape)
    (inside : pieces declarationRule shape.inside = ⟨some [], inner, none⟩)
    (body : ParsesMembers shape.name 0 inner) (scope : Scope) (tree : SyntaxTree)
    (placed : Placed) :
    ∃ added, addType scope tree piece placed = .ok added := by
  obtain ⟨filled, run, read, shaped⟩ := declares
  obtain ⟨nested, parsed⟩ := body scope
    ⟨shape.name, placed.source.indent ++ indentUnit, shape.closing.comments⟩
    ⟨tree, [], bodyStart shape⟩ rfl rfl
  simp [addType, filled, read, shaped, addClassWithMembers, inside, parsed, bind, Except.bind, pure,
    Except.pure]

end

/-- What a piece of a unit declares starts with a word of its own. -/
theorem UnitLeaf.isMember_eq {piece : Piece} {source : Excerpt} {node : Node}
    (isLeaf : UnitLeaf piece source node) : node.isMember =
      !(piece.first.isWord "package" || piece.first.isWord "import") := by
  cases isLeaf with
  | package isPackage => simp [isPackage, Node.isMember]
  | imported noPackage isImport => simp [noPackage, isImport, Node.isMember]
  | textual noPackage noImport kind name kept =>
      simp [noPackage, noImport, Code.textual, Node.isMember]

/-- The declarations of a unit that are not classes with a body say nothing. -/
theorem UnitLeaf.gist_eq {piece : Piece} {source : Excerpt} {node : Node}
    (isLeaf : UnitLeaf piece source node) : node.gist = Code.textual .unknown none .blank := by
  cases isLeaf <;> rfl

/-- A type that is kept as text is no class with a body. -/
theorem Keeps.not_declares {piece : Piece} {kind : TextualKind} {name : Option Text}
    {shape : ClassShape} (kept : Keeps piece kind name) : ¬ Declares piece shape := by
  rintro ⟨filled, run, read, isClass⟩
  rcases kept with ⟨empty, _⟩ | ⟨_, found, readFound, shaped⟩
  · rw [empty] at filled
    cases filled
  · cases read.symm.trans readFound
    cases isClass.symm.trans shaped

theorem Declares.eq {piece : Piece} {shape other : ClassShape} (declares : Declares piece shape)
    (again : Declares piece other) : shape = other := by
  obtain ⟨_, run, read, shaped⟩ := declares
  obtain ⟨_, found, readFound, shapedFound⟩ := again
  cases read.symm.trans readFound
  cases shaped.symm.trans shapedFound
  rfl

/-- What stands in the place of a class of a unit is no package and no import. -/
theorem Begins.isWord {piece : Piece} {shape : ClassShape} {other : CodeToken}
    (begins : Begins piece.first other) (isClass : UnitClass piece shape) :
    other.isWord "package" = false ∧ other.isWord "import" = false := by
  rcases begins with same | isRecord
  · rw [same.isWord, same.isWord]
    exact ⟨isClass.noPackage, isClass.noImport⟩
  · simp only [CodeToken.isWord, Token.isWord, Bool.and_eq_true, beq_iff_eq] at isRecord
    simp [CodeToken.isWord, Token.isWord, isRecord]

theorem Alike.unitLeaf {piece other : Piece} (alike : Alike piece.tokens other.tokens)
    {source : Excerpt} {node : Node} (isLeaf : UnitLeaf piece source node) (excerpt : Excerpt) :
    ∃ found, UnitLeaf other excerpt found := by
  have isWord := (List.forall₂_cons.mp alike.tokens).1.isWord
  cases isLeaf with
  | package isPackage => exact ⟨_, .package (by rw [isWord, isPackage])⟩
  | imported noPackage isImport =>
      exact ⟨_, .imported (by rw [isWord, noPackage]) (by rw [isWord, isImport])⟩
  | textual noPackage noImport kind name kept =>
      exact ⟨_, .textual (by rw [isWord, noPackage]) (by rw [isWord, noImport]) kind name
        (alike.keeps kept)⟩

theorem UnitLeaf.not_unitClass {piece : Piece} {source : Excerpt} {node : Node} {shape : ClassShape}
    (isLeaf : UnitLeaf piece source node) : ¬ UnitClass piece shape := by
  rintro ⟨noPackage, noImport, declares⟩
  cases isLeaf with
  | package isPackage => cases noPackage.symm.trans isPackage
  | imported _ isImport => cases noImport.symm.trans isImport
  | textual _ _ kind name kept => exact kept.not_declares declares

end Code

namespace Outline

variable {job : Printing}

theorem Again.parsesMembers {outline : Outline} {pieces : List Piece}
    (again : Again job outline pieces) {source className : Text} {position : Nat}
    (shaped : outline.Shaped source className position) :
    Code.ParsesMembers className position pieces := by
  induction again generalizing className position with
  | nil => exact Code.parsesMembers_nil
  | leaf alike _ ih =>
      refine (ih shaped.2).node fun excerpt => ?_
      obtain ⟨found, isNode, _⟩ := @Code.Alike.memberShape _ _ alike _ _ _ excerpt _ shaped.1
      exact ⟨found, isNode⟩
  | kept _ _ declares recurs inside _ _ ihMembers ihRest =>
      refine (ihRest shaped.2.2).type declares inside ?_
      rw [recurs.name]
      exact ihMembers shaped.2.1
  | converted _ _ declares _ ih =>
      refine (ih shaped.2.2).node fun excerpt => ?_
      obtain ⟨name, isNode⟩ := declares.memberShape className position excerpt
      exact ⟨_, isNode⟩

theorem Again.parsesUnit {outline : Outline} {pieces : List Piece}
    (again : Again job outline pieces) {source : Text} (shaped : outline.UnitShaped source) :
    Code.ParsesUnit pieces := by
  induction again with
  | nil => exact Code.parsesUnit_nil
  | leaf alike _ ih =>
      obtain ⟨_, isLeaf⟩ := alike.unitLeaf shaped.1 .blank
      refine (ih shaped.2).cons fun noPackage noImport => ?_
      cases isLeaf with
      | package isPackage => cases noPackage.symm.trans isPackage
      | imported _ isImport => cases noImport.symm.trans isImport
      | textual _ _ kind name kept => exact Code.addType_of_keeps kept
  | kept _ _ declares recurs inside body _ _ ihRest =>
      refine (ihRest shaped.2.2).cons fun _ _ => Code.addType_of_declares declares inside ?_
      rw [recurs.name]
      exact body.parsesMembers shaped.2.1
  | converted _ _ declares _ ih =>
      refine (ih shaped.2.2).cons fun _ _ => ?_
      obtain ⟨name, kept⟩ := declares.keeps
      exact Code.addType_of_keeps kept

/-- The declarations of a converted source are those of the source, where classes that were
converted are kept as text. -/
inductive Mirrors (job : Printing) : Outline → Outline → Prop
  | nil : Mirrors job .nil .nil
  | leaf {site other : Site} {node copy : Node} {rest others : Outline}
      (isMember : copy.isMember = node.isMember) (gist : copy.gist = node.gist)
      (later : Mirrors job rest others) : Mirrors job (.leaf site node rest)
      (.leaf other copy others)
  | kept {site other : Site} {shape copy : ClassShape} {members copies rest others : Outline}
      (stays : job.record? site.id = none) (recurs : shape.Recurs copy)
      (body : Mirrors job members copies) (later : Mirrors job rest others) :
      Mirrors job (.type site shape members rest) (.type other copy copies others)
  | converted {site other : Site} {shape : ClassShape} {members rest others : Outline}
      {kind : TextualKind} {name : Option Text} {source : Excerpt}
      (later : Mirrors job rest others) :
      Mirrors job (.type site shape members rest)
        (.leaf other (Code.textual kind name source) others)

/-- The members of a class that stays mirror those that they were read from. -/
theorem Again.mirrors {outline : Outline} {pieces : List Piece} (again : Again job outline pieces)
    {source text className : Text} {position : Nat}
    (shaped : outline.Shaped source className position)
    {copy : Outline} (same : copy.pieces = pieces)
    (shapedCopy : copy.Shaped text className position)
    {tail : List Token} {indent : Text} {cursor : Nat} (laid : copy.Laid text tail indent cursor) :
    outline.Mirrors job copy := by
  induction again generalizing className position copy tail indent cursor with
  | nil =>
      rw [eq_nil_of_pieces same]
      exact .nil
  | @leaf site node rest piece pieces alike _ ih =>
      cases copy with
      | nil => cases same
      | leaf other found others =>
          cases same
          obtain ⟨read, isNode, gist⟩ := @Code.Alike.memberShape _ _ alike _ _ _
            (other.placed text).source _ shaped.1
          cases isNode.symm.trans shapedCopy.1
          refine .leaf ?_ gist (ih shaped.2 rfl shapedCopy.2 laid.2)
          rw [Code.isMember_of_memberShape shaped.1, Code.isMember_of_memberShape shapedCopy.1]
      | type other shape members others =>
          cases same
          obtain ⟨read, isNode, _⟩ := @Code.Alike.memberShape _ _ alike _ _ _
            (other.placed text).source _ shaped.1
          cases isNode.symm.trans ((Code.memberShape_eq_classBody_iff _ _ _ _ _).mpr shapedCopy.1)
  | @kept site shape other members rest piece inner pieces stays _ declares recurs inside _ _
      ihMembers ihRest =>
      cases copy with
      | nil => cases same
      | leaf site node others =>
          cases same
          cases ((Code.memberShape_eq_classBody_iff _ _ _ _ _).mpr declares).symm.trans shapedCopy.1
      | type place found copies others =>
          cases same
          cases declares.eq shapedCopy.1
          obtain ⟨_, _, isPieces, laidMembers, laidRest⟩ := laid
          have body := shapedCopy.2.1
          rw [recurs.name] at body
          refine .kept stays recurs (ihMembers shaped.2.1 ?_ body laidMembers)
            (ihRest shaped.2.2 rfl shapedCopy.2.2 laidRest)
          rw [← isPieces, inside]
  | @converted site shape members rest piece pieces _ _ declares _ ih =>
      cases copy with
      | nil => cases same
      | leaf other node others =>
          cases same
          obtain ⟨name, isNode⟩ := declares.memberShape className position
            (other.placed text).source
          cases isNode.symm.trans shapedCopy.1
          exact .converted (ih shaped.2.2 rfl shapedCopy.2 laid.2)
      | type other found copies others =>
          cases same
          obtain ⟨name, isNode⟩ := declares.memberShape className position
            (other.placed text).source
          cases isNode.symm.trans ((Code.memberShape_eq_classBody_iff _ _ _ _ _).mpr shapedCopy.1)

/-- The declarations of a converted source mirror those of the source. -/
theorem Again.mirrors_unit {outline : Outline} {pieces : List Piece}
    (again : Again job outline pieces)
    {source text : Text} (shaped : outline.UnitShaped source) {copy : Outline}
    (same : copy.pieces = pieces) (shapedCopy : copy.UnitShaped text)
    {tail : List Token} {indent : Text} {cursor : Nat} (laid : copy.Laid text tail indent cursor) :
    outline.Mirrors job copy := by
  induction again generalizing copy tail indent cursor with
  | nil =>
      rw [eq_nil_of_pieces same]
      exact .nil
  | @leaf site node rest piece pieces alike _ ih =>
      have first : site.piece.first.Same piece.first := (List.forall₂_cons.mp alike.tokens).1
      cases copy with
      | nil => cases same
      | leaf other found others =>
          cases same
          refine .leaf ?_ ?_ (ih shaped.2 rfl shapedCopy.2 laid.2)
          · rw [shaped.1.isMember_eq, shapedCopy.1.isMember_eq, first.isWord, first.isWord]
          · rw [shaped.1.gist_eq, shapedCopy.1.gist_eq]
      | type other shape members others =>
          cases same
          obtain ⟨_, isLeaf⟩ := alike.unitLeaf shaped.1 .blank
          exact absurd shapedCopy.1 isLeaf.not_unitClass
  | @kept site shape other members rest piece inner pieces stays begins declares recurs inside
      body _ _ ihRest =>
      cases copy with
      | nil => cases same
      | leaf site node others =>
          cases same
          obtain ⟨noPackage, noImport⟩ := begins.isWord shaped.1
          exact absurd ⟨noPackage, noImport, declares⟩ shapedCopy.1.not_unitClass
      | type place found copies others =>
          cases same
          obtain ⟨_, _, isPieces, laidMembers, laidRest⟩ := laid
          cases declares.eq shapedCopy.1.declares
          have shapedBody := shapedCopy.2.1
          rw [recurs.name] at shapedBody
          refine .kept stays recurs (body.mirrors shaped.2.1 ?_ shapedBody laidMembers)
            (ihRest shaped.2.2 rfl shapedCopy.2.2 laidRest)
          rw [← isPieces, inside]
  | @converted site shape members rest piece pieces _ begins declares _ ih =>
      cases copy with
      | nil => cases same
      | leaf other node others =>
          cases same
          obtain ⟨noPackage, noImport⟩ := begins.isWord shaped.1
          cases shapedCopy.1 with
          | package isPackage => cases noPackage.symm.trans isPackage
          | imported _ isImport => cases noImport.symm.trans isImport
          | textual => exact .converted (ih shaped.2.2 rfl shapedCopy.2 laid.2)
      | type other found copies others =>
          cases same
          obtain ⟨name, kept⟩ := declares.keeps
          exact absurd shapedCopy.1.declares kept.not_declares

section

variable {tree later : SyntaxTree} {source text : Text}

/-- The declarations of both sources can stand for each other in the body of a class. -/
theorem Mirrors.nodesAlike {outline copy : Outline} (mirrors : outline.Mirrors job copy)
    (stands : outline.Stands source tree) (standsCopy : copy.Stands text later) :
    List.Forall₂ (SyntaxTree.NodesAlike tree later) outline.ids copy.ids := by
  induction mirrors with
  | nil => exact .nil
  | leaf isMember gist _ ih =>
      exact .cons ⟨_, _, stands.1, standsCopy.1, isMember.symm, gist.symm⟩
        (ih stands.2.2 standsCopy.2.2)
  | kept _ _ _ _ _ ih =>
      obtain ⟨⟨package, found⟩, _, _, others⟩ := stands
      obtain ⟨⟨packageCopy, foundCopy⟩, _, _, othersCopy⟩ := standsCopy
      exact .cons ⟨_, _, found, foundCopy, rfl, rfl⟩ (ih others othersCopy)
  | converted _ ih =>
      obtain ⟨⟨package, found⟩, _, _, others⟩ := stands
      exact .cons ⟨_, _, found, standsCopy.1, rfl, rfl⟩ (ih others standsCopy.2.2)

/-- A class of a converted source and the class of the source that it mirrors. -/
structure Twin (job : Printing) (source text : Text) (tree later : SyntaxTree) (id : NodeId)
    (decl : ClassDecl) (again : NodeId) (copy : ClassDecl) : Prop where
  stays : job.record? id = none
  present : tree.class? id = some decl
  again : later.class? again = some copy
  superclass : decl.superclass = copy.superclass
  modifiers : decl.modifiers = copy.modifiers
  body : ∃ members copies : Outline, decl.members = members.ids ∧ copy.members = copies.ids ∧
    members.Mirrors job copies ∧ members.Stands source tree ∧ copies.Stands text later ∧
    copies.PlainLeaves text

/-- Each class among the declarations of a converted source mirrors one of the source. -/
theorem Mirrors.exists_twin {outline copies : Outline} (mirrors : outline.Mirrors job copies)
    (stands : outline.Stands source tree) (standsCopy : copies.Stands text later)
    (plain : copies.PlainLeaves text) {again : NodeId} (listed : again ∈ copies.ids)
    {copy : ClassDecl} (isClass : later.class? again = some copy) :
    ∃ id decl, id ∈ outline.types ∧ Twin job source text tree later id decl again copy := by
  induction mirrors with
  | nil => cases listed
  | leaf isMember _ _ ih =>
      rcases List.mem_cons.mp listed with rfl | among
      · cases isClass.symm.trans (plain.1.class?_eq_none standsCopy.1)
      · obtain ⟨id, decl, inTypes, twin⟩ := ih stands.2.2 standsCopy.2.2 plain.2 among
        refine ⟨id, decl, ?_, twin⟩
        rw [types]
        split
        · exact List.mem_cons_of_mem _ inTypes
        · exact inTypes
  | kept stays recurs body _ _ ih =>
      obtain ⟨⟨package, found⟩, _, members, others⟩ := stands
      obtain ⟨⟨packageCopy, foundCopy⟩, _, copies, othersCopy⟩ := standsCopy
      rcases List.mem_cons.mp listed with rfl | among
      · have present := SyntaxTree.class?_of_node? found
        cases isClass.symm.trans (SyntaxTree.class?_of_node? foundCopy)
        exact ⟨_, _, List.mem_cons_self, stays, present, isClass, recurs.superclass.symm,
          recurs.modifiers.symm, _, _, rfl, rfl, body, members, copies, plain.1⟩
      · obtain ⟨id, decl, inTypes, twin⟩ := ih others othersCopy plain.2 among
        exact ⟨id, decl, List.mem_cons_of_mem _ inTypes, twin⟩
  | converted _ ih =>
      obtain ⟨_, _, _, others⟩ := stands
      rcases List.mem_cons.mp listed with rfl | among
      · cases isClass.symm.trans (plain.1.class?_eq_none standsCopy.1)
      · obtain ⟨id, decl, inTypes, twin⟩ := ih others standsCopy.2.2 plain.2 among
        exact ⟨id, decl, List.mem_cons_of_mem _ inTypes, twin⟩

variable {id again child : NodeId} {decl copy : ClassDecl}

/-- A static member class of a class that stayed is a static member class that stayed. -/
theorem Twin.holdsStatic (twin : Twin job source text tree later id decl again copy)
    (held : later.HoldsStatic again child) : ∃ origin nested nestedCopy,
      tree.HoldsStatic id origin ∧
        Twin job source text tree later origin nested child nestedCopy := by
  obtain ⟨nestedCopy, isClass⟩ :=
    Option.isSome_iff_exists.mp (SyntaxTree.class?_isSome_of_holdsStatic held)
  obtain ⟨members, copies, ids, idsCopy, mirrors, stands, standsCopy, plain⟩ := twin.body
  obtain ⟨found, isFound, listed⟩ := held
  cases twin.again.symm.trans isFound
  obtain ⟨member, static⟩ := List.mem_filter.mp listed
  rw [idsCopy] at member
  obtain ⟨origin, nested, inTypes, inner⟩ :=
    mirrors.exists_twin stands standsCopy plain member isClass
  refine ⟨origin, nested, nestedCopy, ⟨decl, twin.present, List.mem_filter.mpr ⟨?_, ?_⟩⟩, inner⟩
  · rw [← listed_isMember] at inTypes
    rw [ids]
    exact mem_ids_of_mem_listed inTypes
  · rw [isClass, Option.any_some, ← inner.modifiers] at static
    rw [inner.present, Option.any_some, static]

/-- What static member classes lead to in a converted source stayed as it was. -/
theorem Twin.reached {target : NodeId} (twin : Twin job source text tree later id decl again copy)
    (path : Relation.ReflTransGen later.HoldsStatic again target) : ∃ origin nested nestedCopy,
      Relation.ReflTransGen tree.HoldsStatic id origin ∧
        Twin job source text tree later origin nested target nestedCopy := by
  induction path with
  | refl => exact ⟨id, decl, copy, .refl, twin⟩
  | tail _ held ih =>
      obtain ⟨parent, _, _, path, own⟩ := ih
      obtain ⟨origin, nested, nestedCopy, holds, inner⟩ := own.holdsStatic held
      exact ⟨origin, nested, nestedCopy, path.tail holds, inner⟩

/-- A class that stayed is as eligible as it was. -/
theorem Twin.isEligible (twin : Twin job source text tree later id decl again copy)
    (distinct : decl.members.Nodup) (eligible : later.isEligible again = true) :
    tree.isEligible id = true := by
  obtain ⟨members, copies, ids, idsCopy, mirrors, stands, standsCopy, _⟩ := twin.body
  refine SyntaxTree.isEligible_of_alike twin.present twin.again twin.superclass twin.modifiers ?_
    (fun _ => distinct) eligible
  rw [ids, idsCopy]
  exact mirrors.nodesAlike stands standsCopy

end

end Outline

namespace ParsedUnit

variable {source : Text} {tree : SyntaxTree} (unit : ParsedUnit source tree)

include unit

/-- The text of a converted regular source can be parsed, and its declarations mirror those of the
source. -/
theorem exists_mirrored (regular : tree.Regular) :
    ∃ later, parse (unit.outline.printed tree.printing ++ unit.rest) = .ok later ∧
      ∃ again : ParsedUnit (unit.outline.printed tree.printing ++ unit.rest) later,
        unit.outline.Mirrors tree.printing again.outline := by
  obtain ⟨closed, fits⟩ := unit.spells_convertUnit.lexFrom_eq 0
  generalize unit.outline.printed tree.printing ++ unit.rest = text at closed fits
  obtain ⟨_, _, placed⟩ := chain_of_lexFrom 0 text closed
  obtain ⟨cut, outline⟩ := unit.regular regular
  obtain ⟨pieces, joined, cutAgain, again⟩ :=
    outline.again cut (Code.standing_ofTokens placed) (Code.reads_ofTokens fits)
  have isCut := cutAgain.pieces_eq
  rw [joined] at isCut
  obtain ⟨later, added⟩ := again.parsesUnit unit.adds.shaped ⟨text, none⟩ { source := text } 0
    (Code.ofTokens (lexAll text).tokens).tail
  have parsed : parse text = .ok later := by
    have read : Code.read text = .ok (Code.ofTokens (lexAll text).tokens) := by
      rw [Code.read, lex]
      simp only [lexAll, closed]
      rfl
    rw [parse, read]
    dsimp only
    rw [lexAll, isCut]
    exact added
  obtain ⟨second⟩ := ParsedUnit.exists_of_parse parsed
  have same : second.outline.pieces = pieces := by
    rw [← second.pieces, ← show (lexAll text).tokens = second.tokens by rw [second.lexed],
      lexAll, isCut]
  exact ⟨later, parsed, second,
    again.mirrors_unit unit.adds.shaped same second.adds.shaped second.adds.laid⟩

/-- No class that a second conversion considers is eligible. -/
theorem not_isEligible_of_mirrors {text : Text} {later : SyntaxTree} (again : ParsedUnit text later)
    (mirrors : unit.outline.Mirrors tree.printing again.outline) {target : NodeId}
    (listed : target ∈ later.targets) : ¬ later.isEligible target = true := by
  intro eligible
  obtain ⟨⟨start, isType, path⟩, _⟩ := (later.mem_targets_iff target).mp listed
  obtain ⟨_, _, present, _⟩ := (later.isEligible_iff_view target).mp eligible
  obtain ⟨copy, isClass⟩ : ∃ copy, later.class? start = some copy := by
    rcases Relation.ReflTransGen.cases_head path with rfl | ⟨_, ⟨copy, isClass, _⟩, _⟩
    · exact ⟨_, present⟩
    · exact ⟨copy, isClass⟩
  obtain ⟨id, decl, inTypes, twin⟩ := mirrors.exists_twin unit.adds.stands again.adds.stands
    again.plainLeaves (again.types_subset isType) isClass
  obtain ⟨origin, nested, nestedCopy, reached, inner⟩ := twin.reached path
  have before := inner.isEligible (unit.proper inner.present).distinct eligible
  -- the class was a target of the first conversion and eligible, so it became a record
  rw [← unit.types] at inTypes
  have target := (tree.mem_targets_iff origin).mpr
    ⟨⟨id, inTypes, reached⟩, Or.inl (by rw [inner.present]; rfl)⟩
  obtain ⟨replacement, replaced⟩ := (tree.judge_replaces_iff origin).mpr before
  have stays := inner.stays
  rw [show tree.printing.record? origin = (tree.replacements.lookup origin).map Replacement.record
    from rfl, (tree.lookup_replacements origin replacement).mpr ⟨target, replaced⟩] at stays
  cases stays

end ParsedUnit

/-- A converted source is converted to itself, and no class of it becomes a record, if
parentheses and braces of the source are nested and neither headers of classes nor types of
components have any. -/
theorem convertSource_convertSource {source : Text} {tree : SyntaxTree}
    (parsed : parse source = .ok tree) (regular : tree.Regular) :
    ∃ first second, convertSource source = .ok first ∧ convertSource first.output = .ok second ∧
      (∀ report ∈ second.reports, report.outcome.isConverted = false) ∧
      second.output = first.output := by
  obtain ⟨unit⟩ := ParsedUnit.exists_of_parse parsed
  obtain ⟨later, parsedAgain, again, mirrors⟩ := unit.exists_mirrored regular
  have converts := unit.convertSource_eq parsed
  obtain ⟨reports, _⟩ := SyntaxTree.convert_of_not_isEligible fun _ listed =>
    unit.not_isEligible_of_mirrors again mirrors listed
  have none : later.convertUnit.reports.filter (fun report => report.outcome.isConverted) = [] :=
    List.filter_eq_nil_iff.mpr fun report listed => by
      rw [reports report listed]
      exact Bool.false_ne_true
  have unchanged : later.convertUnit.isChanged = false := by
    rw [UnitConversion.isChanged, UnitConversion.converted, convertedCount, none]
    rfl
  refine ⟨_, ⟨unit.outline.printed tree.printing ++ unit.rest, later.convertUnit.reports⟩, converts,
    ?_, reports, rfl⟩
  exact convertSource_eq_ok_iff.mpr ⟨later, parsedAgain, by simp [unchanged]⟩

/-- A class with type parameters that stays, with a member that becomes a record. -/
def genericPoint : Text :=
  "@A(1)class C<T>implements I{static class P<U>{private final U x;/*b*/P(U x){this.x=x;}int y(){}}T z;}".toList

theorem SyntaxTree.regular_of_classes {tree : SyntaxTree} (nested : Word.Nested tree.source.words)
    (plain : (List.range tree.nodes.size).all (fun id => (tree.class? id).all fun decl =>
      decl.headerWords.all Word.isPlain &&
        (tree.instanceFieldsOf decl).all fun field => field.ty.words.all Word.isPlain) = true) :
    tree.Regular := by
  have each : ∀ id decl, tree.class? id = some decl → decl.headerWords.all Word.isPlain = true ∧
      (tree.instanceFieldsOf decl).all (fun field => field.ty.words.all Word.isPlain) = true := by
    intro id decl present
    have here := List.all_eq_true.mp plain id (List.mem_range.mpr (lt_of_class? present))
    rw [present] at here
    exact Bool.and_eq_true_iff.mp here
  refine ⟨nested, fun id decl present => List.all_eq_true.mp (each id decl present).1, ?_⟩
  intro id decl _ present field listed
  exact List.all_eq_true.mp (List.all_eq_true.mp (each id decl present).2 field listed)

theorem genericPoint_convertSource_convertSource :
    ∃ tree, parse genericPoint = .ok tree ∧ tree.Regular ∧ tree.isEligible 3 = true ∧
      ∃ first second, convertSource genericPoint = .ok first ∧
        convertSource first.output = .ok second ∧
        (∀ report ∈ second.reports, report.outcome.isConverted = false) ∧
        second.output = first.output := by
  obtain ⟨tree, parsed, checked⟩ := exists_ok_of_any
    (show (parse genericPoint).toOption.any (fun tree => tree.isEligible 3 &&
      decide (Word.Nested tree.source.words) &&
      (List.range tree.nodes.size).all fun id => (tree.class? id).all fun decl =>
        decl.headerWords.all Word.isPlain &&
          (tree.instanceFieldsOf decl).all fun field => field.ty.words.all Word.isPlain) = true by
      decide +kernel)
  obtain ⟨front, plain⟩ := Bool.and_eq_true_iff.mp checked
  obtain ⟨eligible, nested⟩ := Bool.and_eq_true_iff.mp front
  have regular := SyntaxTree.regular_of_classes (of_decide_eq_true nested) plain
  exact ⟨tree, parsed, regular, eligible, convertSource_convertSource parsed regular⟩

end JavaRecords
