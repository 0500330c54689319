import JavaRecords.Proofs.Conversion.Canonical
import JavaRecords.Proofs.Conversion.Writes

set_option autoImplicit false

namespace JavaRecords

theorem Token.SetsFields.writesField {all inside : List Token} {pair : Text × Text}
    {rest : List (Text × Text)} (sets : SetsFields all (pair :: rest) inside)
    (opening closing : Token) : WritesField (opening :: (inside ++ [closing])) pair.1 := by
  have exists_run : ∃ run behind, inside = run ++ behind ∧ SetsField all pair.1 pair.2 run := by
    rcases setsFields_cons_iff.mp sets with ⟨_, own⟩ | ⟨run, semicolon, others, split, own, _⟩
    · exact ⟨inside, [], by simp, own⟩
    · exact ⟨run, semicolon :: others, split, own⟩
  obtain ⟨run, behind, rfl, this, dot, target, equals, name, rfl, isThis, isDot, isTarget, isEquals,
    isName, _⟩ := exists_run
  -- the value is a name, so the sign in front of it is no part of a comparison
  have noSign : name.isPunct '=' = false := by
    have isIdent := eq_of_beq (Bool.and_eq_true_iff.mp isName).1
    simp [isPunct, isIdent]
  refine ⟨[opening], this, dot, target, equals :: name :: (behind ++ [closing]), by simp, isThis,
    isDot, isTarget, Or.inl (Or.inl ⟨.assign, by decide, ?_, ?_⟩)⟩
  · simp [spells, AssignOp.spelling, isEquals]
  · simp [spells, AssignOp.spelling, noSign]

namespace ClassView

variable {view : ClassView} {components : List Component}

/-- A class with components has one for each of its instance fields, of which there are some. -/
theorem parts_of_components (given : view.components = .ok components) : components ≠ [] ∧
    (view.instanceFields.mapM fun field => component field.1 field.2) = .ok components := by
  unfold ClassView.components at given
  split at given
  · cases given
  · split at given
    · cases given
    · split at given <;> cases given
      rename_i some read
      exact ⟨some, read⟩

theorem mem_canonicalConstructors {id : NodeId} :
    id ∈ view.canonicalConstructors components ↔
      ∃ decl, (id, decl) ∈ view.constructors ∧ isCanonical decl components = true := by
  simp [canonicalConstructors]

theorem exists_strayWrite {canonical : NodeId} {ctor : NodeId × ConstructorDecl}
    (listed : ctor ∈ view.constructors) (other : ctor.1 ≠ canonical)
    (writes : componentWrittenBy? (.constructor ctor.2) components ≠ none) :
    ∃ field member, view.strayWrite? components canonical =
      some (.componentWritten field member) := by
  cases stray : view.strayWrite? components canonical with
  | none =>
      have quiet := (view.strayWrite?_eq_none_iff components canonical).mp stray
      exact absurd (quiet _ (mem_constructors.mp listed) other) writes
  | some reason =>
      obtain ⟨member, _, found⟩ := List.exists_of_findSome?_eq_some stray
      split at found
      · cases found
      · obtain ⟨field, _, rfl⟩ := Option.map_eq_some_iff.mp found
        exact ⟨field, _, rfl⟩

theorem nodup_canonicalConstructors (distinct : (view.members.map Member.id).Nodup) :
    (view.canonicalConstructors components).Nodup := by
  have constructors : (view.constructors.map Prod.fst).Sublist (view.members.map Member.id) := by
    unfold ClassView.constructors
    induction view.members with
    | nil => exact .slnil
    | cons member rest ih =>
        obtain ⟨id, node⟩ := member
        cases node with
        | constructor decl => exact ih.cons_cons id
        | _ => exact ih.cons id
  exact distinct.sublist ((List.filter_sublist.map _).trans constructors)

/-- If every constructor of canonical shape writes a component, a note on several of them comes with
the reason that one of them is not taken. -/
theorem exists_componentWritten (distinct : (view.members.map Member.id).Nodup)
    (writes : ∀ components, view.components = .ok components → ∀ ctor ∈ view.constructors,
      isCanonical ctor.2 components = true →
        componentWrittenBy? (.constructor ctor.2) components ≠ none)
    {candidates : Nat}
    (noted : .ambiguousCanonicalConstructor candidates ∈ view.classifyWithDiagnostics.2) :
    ∃ field member, view.classifyWithDiagnostics.1 =
      .ineligible (.componentWritten field member) := by
  unfold classifyWithDiagnostics at noted ⊢
  cases given : view.components with
  | error reason => simp [given] at noted
  | ok components =>
      cases found : view.canonicalConstructors components with
      | nil => simp [given, found] at noted
      | cons canonical others =>
          cases others with
          | nil =>
              cases stray : view.strayWrite? components canonical <;>
                simp [given, found, stray] at noted
          | cons second later =>
              have different := @nodup_canonicalConstructors view components distinct
              rw [found] at different
              obtain ⟨decl, listed, shaped⟩ := mem_canonicalConstructors.mp
                (show second ∈ view.canonicalConstructors components by rw [found]; simp)
              have other : second ≠ canonical := by
                rintro rfl
                simp at different
              obtain ⟨field, member, stray⟩ :=
                exists_strayWrite listed other (writes components given _ listed shaped)
              exact ⟨field, member, by simp [found, stray]⟩

/-- If every constructor of canonical shape writes a component, a class that can become a record has
only one. -/
theorem existsUnique_canonical (distinct : (view.members.map Member.id).Nodup)
    (writes : ∀ components, view.components = .ok components → ∀ ctor ∈ view.constructors,
      isCanonical ctor.2 components = true →
        componentWrittenBy? (.constructor ctor.2) components ≠ none)
    {eligible : Eligible} (classified : view.classify = .eligible eligible) :
    ∃! ctor, ctor ∈ view.constructors ∧ isCanonical ctor.2 eligible.components = true := by
  obtain ⟨given, first⟩ := of_eligible classified
  have quiet := quiet_of_classify classified
  -- each of them has the id that was taken
  have taken : ∀ ctor ∈ view.constructors, isCanonical ctor.2 eligible.components = true →
      ctor.1 = eligible.canonical := by
    intro ctor listed shaped
    by_contra other
    exact writes _ given ctor listed shaped (quiet _ (mem_constructors.mp listed) other)
  obtain ⟨member, found, canonical⟩ := Option.map_eq_some_iff.mp first
  obtain ⟨decl, isConstructor, shaped⟩ : ∃ decl, member.node = .constructor decl ∧
      isCanonical decl eligible.components = true := by
    have own := List.find?_some found
    unfold isCanonicalMember at own
    split at own
    · rename_i decl same
      exact ⟨decl, same, own⟩
    · cases own
  have listed : (member.id, decl) ∈ view.constructors := by
    rw [mem_constructors, ← isConstructor]
    exact List.mem_of_find?_eq_some found
  refine ⟨(member.id, decl), ⟨listed, shaped⟩, fun ctor ⟨among, own⟩ => ?_⟩
  have same := List.inj_on_of_nodup_map distinct (mem_constructors.mp among)
    (mem_constructors.mp listed) ((taken ctor among own).trans canonical.symm)
  rw [Member.mk.injEq, Node.constructor.injEq] at same
  exact Prod.ext same.1 same.2

end ClassView

namespace ParsedUnit

variable {source : Text} {tree : SyntaxTree} (unit : ParsedUnit source tree)

include unit

theorem writes_of_isCanonical {id : NodeId} {decl : ConstructorDecl}
    (found : tree.node? id = some (.constructor decl)) {components : List Component}
    (named : ∀ component ∈ components, component.name.IsName) (nonempty : components ≠ [])
    (shaped : isCanonical decl components = true) :
    componentWrittenBy? (.constructor decl) components ≠ none := by
  intro quiet
  obtain ⟨opening, inside, closing, hasBlock, shape⟩ := unit.isCanonical_iff_setsFields found named
  obtain ⟨block, code, distance, own, read, marks, moved⟩ :=
    unit.exists_read_body found (show _ = some (decl.name, decl.body) from rfl)
  have isSource : (Node.constructor decl).source? = some decl.source := rfl
  rw [own.eq_codeBetween isSource, ← hasBlock.eq_codeBetween isSource] at moved
  obtain ⟨types, sets⟩ := shape.mp shaped
  generalize decl.params = params at types sets
  cases types with
  | nil => exact nonempty rfl
  | cons _ _ =>
      have writes := sets.writesField opening closing
      rw [← Token.writesField_slide 0, ← moved, Token.writesField_slide] at writes
      obtain ⟨write, isWrite, name, qualified⟩ := Code.exists_write_of_writesField marks writes
      have bare := (shadowed_of_componentWrittenBy? quiet
        (Node.writingCode?_of_labelledBody? (show _ = some (decl.name, decl.body) from rfl)) read
        isWrite List.mem_cons_self name.symm).1
      rw [qualified] at bare
      cases bare

end ParsedUnit

/-- A class with several canonical constructors stays a class, because one of them is found to
assign components. So a class that can become a record has exactly one. -/
theorem SyntaxTree.unambiguous_of_parse {source : Text} {tree : SyntaxTree}
    (parsed : parse source = .ok tree) {id : NodeId} {decl : ClassDecl}
    (present : tree.class? id = some decl) :
    ∃ view, tree.resolveClass id = .ok (some view) ∧
      (∀ candidates,
        .ambiguousCanonicalConstructor candidates ∈ view.classifyWithDiagnostics.2 →
          ∃ field member,
            view.classifyWithDiagnostics.1 = .ineligible (.componentWritten field member)) ∧
      ∀ eligible, view.classify = .eligible eligible →
        ∃! ctor, ctor ∈ view.constructors ∧ isCanonical ctor.2 eligible.components = true := by
  obtain ⟨unit⟩ := ParsedUnit.exists_of_parse parsed
  obtain ⟨view, resolved⟩ := exists_view unit.bodied present (unit.proper present)
  obtain ⟨own, members, _, read, rfl⟩ := (tree.resolveClass_eq_some_iff _ _).mp resolved
  obtain ⟨ids, distinct, _, nodes⟩ := resolveMembers_sound read
  rw [← ids] at distinct
  have writes : ∀ components, ClassView.components ⟨id, own, members⟩ = .ok components →
      ∀ ctor ∈ ClassView.constructors ⟨id, own, members⟩, isCanonical ctor.2 components = true →
        componentWrittenBy? (.constructor ctor.2) components ≠ none := by
    intro components given ctor listed shaped
    obtain ⟨nonempty, made⟩ := ClassView.parts_of_components given
    refine unit.writes_of_isCanonical (nodes _ (ClassView.mem_constructors.mp listed)) ?_ nonempty
      shaped
    intro component among
    rw [ClassView.eq_of_mapM_component made] at among
    obtain ⟨field, isField, rfl⟩ := List.mem_map.mp among
    exact unit.isName_field (nodes _ (ClassView.mem_instanceFields.mp isField).1)
  exact ⟨_, resolved, fun _ noted => ClassView.exists_componentWritten distinct writes noted,
    fun _ classified => ClassView.existsUnique_canonical distinct writes classified⟩

/-- A class with two canonical constructors, and one with a single one. -/
def twoWays : Text :=
  ("class P\x7bprivate final int x;P(int x)\x7bthis.x=x;\x7dP(int y)\x7bthis.x=y\x7d\x7d" ++
    "class Q\x7bprivate final int x;Q(int x)\x7bthis.x=x;\x7d\x7d").toList

theorem SyntaxTree.twoWays_unambiguous_of_parse :
    ∃ tree decl other view single eligible, parse twoWays = .ok tree ∧
      tree.class? 3 = some decl ∧ tree.resolveClass 3 = .ok (some view) ∧
      tree.class? 6 = some other ∧ tree.resolveClass 6 = .ok (some single) ∧
      .ambiguousCanonicalConstructor 2 ∈ view.classifyWithDiagnostics.2 ∧
      (∃ field member,
        view.classifyWithDiagnostics.1 = .ineligible (.componentWritten field member)) ∧
      single.classify = .eligible eligible ∧
      ∃! ctor, ctor ∈ single.constructors ∧ isCanonical ctor.2 eligible.components = true := by
  have checked : (do
      let tree ← (parse twoWays).toOption
      let decl ← tree.class? 3
      let view? ← (tree.resolveClass 3).toOption
      let view ← view?
      let other ← tree.class? 6
      let single? ← (tree.resolveClass 6).toOption
      let single ← single?
      let eligible ← single.classify.eligible?
      some (view.classifyWithDiagnostics.2)) = some [.ambiguousCanonicalConstructor 2] := by
    decide +kernel
  simp only [bind, Option.bind_eq_some_iff, Option.some.injEq] at checked
  obtain ⟨tree, parsed, decl, present, _, resolved, view, rfl, other, presentOther, _,
    resolvedOther, single, rfl, eligible, isEligible, notes⟩ := checked
  replace parsed := eq_ok_of_toOption parsed
  replace resolved := eq_ok_of_toOption resolved
  replace resolvedOther := eq_ok_of_toOption resolvedOther
  have noted : .ambiguousCanonicalConstructor 2 ∈ view.classifyWithDiagnostics.2 := by
    rw [notes]
    exact List.mem_singleton_self _
  have classified := Classification.eq_of_eligible? isEligible
  obtain ⟨same, found, blocked, _⟩ := unambiguous_of_parse parsed present
  cases resolved.symm.trans found
  obtain ⟨same, found, _, unique⟩ := unambiguous_of_parse parsed presentOther
  cases resolvedOther.symm.trans found
  exact ⟨tree, decl, other, view, single, eligible, parsed, present, resolved, presentOther,
    resolvedOther, noted, blocked 2 noted, classified, unique eligible classified⟩

end JavaRecords
