import JavaRecords.Proofs.Code.Slices

set_option autoImplicit false

namespace JavaRecords

/-- The initial value of a field stands in its source behind a `=` of the declaration, up to a
comma, a semicolon or the end of the declaration. `block` are the tokens of the value that are
not comments. -/
structure FieldDecl.HasValue (decl : FieldDecl) (source : Text) (tokens : List Token) (value : Text)
    (block : List Token) : Prop where
  place : ∃ start, Text.slice? source start (start + Text.byteSize value) = some value ∧
    block = Token.codeBetween tokens start (start + Text.byteSize value)
  declared : ∃ before equals after,
    Token.codeBetween tokens decl.source.range.start decl.source.range.stop =
      before ++ equals :: (block ++ after) ∧ equals.isPunct '=' = true ∧
      ∀ next ∈ after.head?, next.isPunct ',' = true ∨ next.isPunct ';' = true

namespace Code

/-- The first of the separators of a declaration is a comma or a semicolon at its place. -/
theorem split_of_separators {depth angles index : Nat} {previous : CodeToken}
    {code : List CodeToken} {entry : Nat × CodeToken} {others : List (Nat × CodeToken)}
    (found : separators depth angles index previous code = entry :: others) :
    ∃ front back, code = front ++ entry.2 :: back ∧ entry.1 = index + front.length ∧
      (entry.2.isPunct ',' = true ∨ entry.2.isPunct ';' = true) := by
  induction code generalizing depth angles index previous others with
  | nil => cases found
  | cons first rest ih =>
      have onward : ∀ {depth angles : Nat},
          separators depth angles (index + 1) first rest = entry :: others →
          ∃ front back, first :: rest = front ++ entry.2 :: back ∧ entry.1 = index + front.length ∧
            (entry.2.isPunct ',' = true ∨ entry.2.isPunct ';' = true) := by
        intro depth angles found
        obtain ⟨front, back, split, place, mark⟩ := ih found
        refine ⟨first :: front, back, by rw [split, List.cons_append], ?_, mark⟩
        rw [place, List.length_cons]
        omega
      unfold separators at found
      split at found
      · exact onward found
      · split at found
        · exact onward found
        · split at found
          · exact onward found
          · split at found
            · rename_i semicolon
              cases found
              exact ⟨[], rest, rfl, rfl, Or.inr semicolon⟩
            · split at found
              · exact onward found
              · split at found
                · exact onward found
                · split at found
                  · rename_i comma
                    cases found
                    exact ⟨[], rest, rfl, rfl, Or.inl (Bool.and_eq_true_iff.mp comma).2⟩
                  · exact onward found

/-- The initial value of a field is spelled by the tokens behind its `=` up to the
first separator. -/
theorem split_of_fieldInitializer? {split : MemberSplit} {value : Text}
    (found : fieldInitializer? split = some value) :
    split.stop.isPunct '=' = true ∧ ∃ run after, split.after = run ++ after ∧ run ≠ [] ∧
      value = text run ∧ ∀ next ∈ after.head?, next.isPunct ',' = true ∨
        next.isPunct ';' = true := by
  unfold fieldInitializer? at found
  split at found
  · rename_i isEquals
    refine ⟨isEquals, ?_⟩
    have mark := CodeToken.isPunct_of_isPunct isEquals
    have own : fieldSeparators split.stop split.after =
      separators 0 0 1 split.stop split.after := by
      simp [fieldSeparators, mark]
    rw [own] at found
    cases places : separators 0 0 1 split.stop split.after with
    | nil =>
        rw [places] at found
        dsimp only at found
        split at found
        · cases found
        · rename_i some
          cases found
          exact ⟨split.after, [], by simp, by simpa using some, rfl, by simp⟩
    | cons entry others =>
        obtain ⟨front, back, joined, place, isMark⟩ := split_of_separators places
        have taken : split.after.take (entry.1 - 1) = front := by
          rw [joined, place, Nat.add_sub_cancel_left, List.take_left]
        rw [places] at found
        dsimp only at found
        rw [taken] at found
        split at found
        · cases found
        · rename_i some
          cases found
          refine ⟨front, entry.2 :: back, joined, by simpa using some, rfl, ?_⟩
          rintro next ⟨⟩
          exact isMark
  · cases found

theorem initializer_of_field? {split : MemberSplit} {modifiers : Modifiers} {position : Nat}
    {source : Excerpt} {decl : FieldDecl}
    (read : field? split modifiers position source = some decl) :
    decl.initializer = fieldInitializer? split := by
  unfold field? at read
  split at read
  · split at read
    · cases read
      rfl
    · cases read
  · cases read

/-- The initial value of a field is spelled by a run of the tokens of its declaration. -/
theorem exists_value_of_memberShape {className : Text} {position : Nat} {piece : Piece}
    {source : Excerpt} {decl : FieldDecl} {value : Text}
    (shaped : memberShape className position piece source = .ok (.node (.field decl)))
    (initial : decl.initializer = some value) :
    ∃ before equals run after, piece.tokens = before ++ equals :: (run ++ after) ∧
      equals.isPunct '=' = true ∧ run ≠ [] ∧ value = text run ∧
      ∀ next ∈ after.head?, next.isPunct ',' = true ∨ next.isPunct ';' = true := by
  obtain ⟨run, params, code, split, isRun, isParams, isSplit, field⟩ := field_of_memberShape shaped
  obtain ⟨joined, _⟩ := append_of_modifiers isRun
  obtain ⟨taken, joinedParams, _⟩ := append_of_typeParams? isParams
  have joinedSplit := append_of_splitMember? isSplit
  rw [initializer_of_field? field] at initial
  obtain ⟨isEquals, value, after, behind, nonempty, isText, ends⟩ :=
    split_of_fieldInitializer? initial
  refine ⟨run.taken ++ taken ++ split.before, split.stop, value, after, ?_, isEquals,
    nonempty, isText, ends⟩
  rw [← joined, ← joinedParams, ← joinedSplit, behind]
  simp

end Code

namespace ParsedUnit

variable {source : Text} {tree : SyntaxTree} (unit : ParsedUnit source tree)

include unit

/-- The initial value of a field is read from a run of the tokens of its declaration. -/
theorem exists_value {id : NodeId} {decl : FieldDecl} (found : tree.node? id = some (.field decl))
    {value : Text} (initial : decl.initializer = some value) :
    ∃ first rest, first :: rest <:+: (Code.ofTokens unit.tokens).tokens ∧
      value = Code.text (first :: rest) ∧
      decl.HasValue source unit.tokens value ((first :: rest).map CodeToken.token) := by
  rcases unit.exists_declaration (by rw [found]; rfl) with
    ⟨site, node, rest, rfl, among⟩ | ⟨site, shape, members, rfl, isClass⟩
  · cases among.stands.1.symm.trans found
    rcases among.shaped with inUnit | ⟨className, position, inClass⟩
    · cases inUnit.1
    · obtain ⟨before, equals, run, after, split, isEquals, nonempty, rfl, ends⟩ :=
        Code.exists_value_of_memberShape inClass.1 initial
      obtain ⟨first, rest, rfl⟩ := List.exists_cons_of_ne_nil nonempty
      have whole := among.first_infix rfl
      have inside : first :: rest <:+: (Code.ofTokens unit.tokens).tokens := by
        refine List.IsInfix.trans ⟨before ++ [equals], after, ?_⟩ whole
        rw [split]
        simp
      obtain ⟨last, isLast⟩ : ∃ last, (first :: rest).getLast? = some last := ⟨_, rfl⟩
      have sliced := Code.slice?_text unit.placed unit.spelled inside rfl isLast
      have block := Code.codeBetween_run unit.located inside rfl isLast
      have stop := Text.stop_of_slice? sliced
      rw [← stop] at sliced block
      have range : Token.codeBetween unit.tokens decl.source.range.start decl.source.range.stop =
          site.piece.tokens.map CodeToken.token := by
        rw [show decl.source = (site.placed source).source from
          Option.some.inj among.plain.source?_eq]
        exact Code.codeBetween_run unit.located whole rfl site.piece.getLast?_tokens
      refine ⟨first, rest, inside, rfl, ⟨first.start, sliced, block.symm⟩,
        before.map CodeToken.token, equals.token, after.map CodeToken.token, ?_, isEquals, ?_⟩
      · rw [range, split]
        simp
      · intro next isNext
        rw [List.head?_map] at isNext
        obtain ⟨token, isToken, rfl⟩ := Option.map_eq_some_iff.mp isNext
        exact ends token isToken
  · obtain ⟨package, present⟩ := isClass.present
    cases (SyntaxTree.node?_of_class? present).symm.trans found

end ParsedUnit

end JavaRecords
