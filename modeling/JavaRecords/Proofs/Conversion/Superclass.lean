import JavaRecords.Proofs.Code.Slices
import JavaRecords.Proofs.Parse.Clauses
import JavaRecords.Proofs.Parse.Bindings

set_option autoImplicit false

namespace JavaRecords

/-- The text of a source from the first to the last of some tokens. -/
def Token.excerpt? (source : Text) (tokens : List Token) : Option Text := do
  let first ← tokens.head?
  let last ← tokens.getLast?
  Text.slice? source first.start last.stop

/-- The header of a class, among the tokens of its source. Of the tokens of the class that are not
comments, it is what stands after the name and the type parameters and before the first brace. A
class has type parameters if an angle bracket follows the name, up to the one that closes it. -/
def ClassDecl.Headed (decl : ClassDecl) (tokens header : List Token) : Prop :=
  ∃ before keyword name params opening inside closing,
    (Token.between tokens decl.source.range.start decl.source.range.stop).filter
        (fun token => !token.isComment) =
      before ++ keyword :: name :: (params ++ (header ++ opening :: (inside ++ [closing]))) ∧
    keyword.start = decl.source.range.start + Text.byteSize decl.headerPrefix ∧
    keyword.isWord "class".toList = true ∧ name.isIdent = true ∧ name.text = decl.name ∧
    (params = [] ∧ (∀ next ∈ (header ++ [opening]).head?, next.isPunct '<' = false) ∨
      Token.Angled params) ∧
    (∀ token ∈ header, token.isPunct '{' = false) ∧ opening.isPunct '{' = true

/-- What is kept of a clause is the text that it spans in the source. Nothing is kept where the
header has no such keyword outside of angle brackets or no tokens in its clause. -/
structure Token.RecordsClause (source : Text) (header : List Token) (keyword : String)
    (recorded : Option Text) : Prop where
  text : ∀ clause, IsClause keyword.toList header clause → clause ≠ [] →
    ∃ text, excerpt? source clause = some text ∧ recorded = some text
  absent : (∀ clause, IsClause keyword.toList header clause → clause = []) → recorded = none

namespace Token

variable {header other params others behind more : List Token} {opening brace : Token}

/-- What stands in front of the first brace. -/
theorem takeWhile_header (free : ∀ token ∈ header, token.isPunct '{' = false)
    (isOpening : opening.isPunct '{' = true) (after : List Token) :
    (header ++ opening :: after).takeWhile (fun token => !token.isPunct '{') = header := by
  rw [List.takeWhile_append_of_pos fun token listed => by rw [free token listed]; rfl,
    List.takeWhile_cons_of_neg (by rw [isOpening]; decide), List.append_nil]

/-- Tokens that do not start with an angle bracket do not start with tokens in angle brackets. -/
theorem not_angled_of_head? (next : ∀ next ∈ (header ++ [opening]).head?, next.isPunct '<' = false)
    (same : header ++ opening :: behind = params ++ more) : ¬ Angled params := by
  rintro ⟨angle, inside, closing, rfl, isAngle, -⟩
  have first : angle ∈ (header ++ [opening]).head? := by
    cases header with
    | nil => exact congrArg some (List.cons.inj same).1
    | cons _ _ => exact congrArg some (List.cons.inj same).1
  rw [next angle first] at isAngle
  cases isAngle

/-- The type parameters of a class, which start with an angle bracket, are told from the header. -/
theorem header_unique
    (same : params ++ (header ++ opening :: behind) = others ++ (other ++ brace :: more))
    (listed : params = [] ∧ (∀ next ∈ (header ++ [opening]).head?, next.isPunct '<' = false) ∨
      Angled params)
    (listedOther : others = [] ∧ (∀ next ∈ (other ++ [brace]).head?, next.isPunct '<' = false) ∨
      Angled others)
    (free : ∀ token ∈ header, token.isPunct '{' = false) (isOpening : opening.isPunct '{' = true)
    (freeOther : ∀ token ∈ other, token.isPunct '{' = false) (isBrace : brace.isPunct '{' = true) :
    header = other := by
  have params_eq : params = others := by
    rcases listed with ⟨rfl, next⟩ | angled
    · rcases listedOther with ⟨rfl, -⟩ | angledOther
      · rfl
      · exact absurd angledOther (not_angled_of_head? next same)
    · rcases listedOther with ⟨rfl, next⟩ | angledOther
      · exact absurd angled (not_angled_of_head? next same.symm)
      · exact angled.unique angledOther same
  rw [params_eq, List.append_cancel_left_eq] at same
  rw [← takeWhile_header free isOpening behind, same, takeWhile_header freeOther isBrace]

end Token

theorem ClassDecl.Headed.unique {decl : ClassDecl} {tokens header other : List Token}
    (distinct : (tokens.map Token.start).Nodup) (headed : decl.Headed tokens header)
    (headedOther : decl.Headed tokens other) : header = other := by
  obtain ⟨before, keyword, name, params, opening, inside, closing, split, start, -, -, -, listed,
    free, isOpening⟩ := headed
  obtain ⟨beforeOther, word, _, others, brace, _, _, splitOther, startOther, -, -, -,
    listedOther, freeOther, isBrace⟩ := headedOther
  have sublist : List.Sublist ((Token.between tokens decl.source.range.start
      decl.source.range.stop).filter fun token => !token.isComment) tokens :=
    List.filter_sublist.trans List.filter_sublist
  replace distinct := (sublist.map Token.start).nodup distinct
  have same := split.symm.trans splitOther
  rw [split] at distinct
  -- the keywords start at the same byte, so they are the same token at the same place
  obtain rfl : keyword = word := List.inj_on_of_nodup_map distinct (by simp) (by rw [same]; simp)
    (start.trans startOther.symm)
  have once := (List.nodup_cons.mp (List.nodup_middle.mp (List.Nodup.of_map _ distinct))).1
  rw [List.mem_append, not_or] at once
  obtain ⟨-, -, named⟩ := (List.append_cons_inj_of_notMem once.1 once.2).mp same
  exact Token.header_unique (List.cons.inj named).2 listed listedOther free isOpening freeOther
    isBrace

namespace Code

theorem excerpt?_map {source blank : Text} {tokens : List Token} (placed : Token.Placed 0 tokens)
    (spelled : source = Token.spell tokens ++ blank) {part : List CodeToken}
    (within : part <:+: (ofTokens tokens).tokens) (nonempty : part ≠ []) :
    Token.excerpt? source (part.map CodeToken.token) = some (text part) := by
  have starts := List.head?_eq_some_head nonempty
  have ends := List.getLast?_eq_some_getLast nonempty
  rw [Token.excerpt?, List.head?_map, List.getLast?_map, starts, ends]
  exact slice?_text placed spelled within starts ends

theorem headerClause?_eq_some_iff {keyword : String} {header : List CodeToken} {written : Text} :
    headerClause? keyword header = some written ↔
      ∃ rest, afterClauseKeyword? keyword 0 header = some rest ∧ clauseTokens 0 rest ≠ [] ∧
        text (clauseTokens 0 rest) = written := by
  unfold headerClause?
  cases afterClauseKeyword? keyword 0 header with
  | none => simp only [reduceCtorEq, false_and, exists_false]
  | some rest =>
      simp only [Option.some.injEq, exists_eq_left']
      split
      · rename_i none
        simp only [none, reduceCtorEq, ne_eq, not_true_eq_false, false_and]
      · rename_i some
        exact ⟨fun same => ⟨some, Option.some.inj same⟩, fun same => congrArg _ same.2⟩

theorem recordsClause_headerClause? {source blank : Text} {tokens : List Token}
    (placed : Token.Placed 0 tokens) (spelled : source = Token.spell tokens ++ blank)
    {header : List CodeToken} (within : header <:+: (ofTokens tokens).tokens)
    (nests : Token.NestsAngles 0 (header.map CodeToken.token)) {keyword : String}
    (isClause : ∀ code : CodeToken, code.isWord keyword = true → isClauseKeyword code = true) :
    Token.RecordsClause source (header.map CodeToken.token) keyword
      (headerClause? keyword header) where
  text clause between nonempty := by
    obtain ⟨rest, found, rfl⟩ := (isClause_map_iff isClause nests).mp between
    replace nonempty := List.map_eq_nil_iff.not.mp nonempty
    have inSource : clauseTokens 0 rest <:+: (ofTokens tokens).tokens :=
      ((clauseTokens_isPrefix 0 rest).isInfix.trans
        (afterClauseKeyword?_suffix found).isInfix).trans within
    exact ⟨_, excerpt?_map placed spelled inSource nonempty,
      headerClause?_eq_some_iff.mpr ⟨rest, found, nonempty, rfl⟩⟩
  absent none := by
    cases recorded : headerClause? keyword header with
    | none => rfl
    | some written =>
        obtain ⟨rest, found, nonempty, -⟩ := headerClause?_eq_some_iff.mp recorded
        have empty := none _ ((isClause_map_iff isClause nests).mpr ⟨rest, found, rfl⟩)
        exact absurd (List.map_eq_nil_iff.mp empty) nonempty

/-- Type parameters are read from the angle bracket after the name to the one that closes it. -/
theorem angled_of_typeParams? {params rest : List CodeToken} {written : Option Text}
    (read : typeParams? (params ++ rest) = .ok (written, rest)) :
    params = [] ∧ (∀ next ∈ rest.head?, next.isPunct '<' = false) ∨
      Token.Angled (params.map CodeToken.token) := by
  unfold typeParams? at read
  split at read
  · rename_i none
    exact .inl ⟨(List.append_eq_nil_iff.mp none).1, by
      rw [(List.append_eq_nil_iff.mp none).2]
      exact nofun⟩
  · rename_i angle after whole
    split at read
    · rename_i isOpening
      split at read
      · cases read
      · rename_i enclosed closed
        obtain ⟨-, rfl⟩ := Prod.mk.inj (Except.ok.inj read)
        obtain ⟨isClosing, nests, balanced⟩ := nestsAngles_of_close? (close_eq_ok closed)
        have taken : params = angle :: (enclosed.inside ++ [enclosed.closing]) := by
          refine (List.append_left_inj enclosed.rest).mp ?_
          rw [whole, ← tokens_of_close? (close_eq_ok closed), Enclosed.tokens]
          simp only [List.cons_append, List.append_assoc, List.nil_append]
        rw [Int.natCast_zero, Int.zero_add] at balanced
        refine .inr ⟨angle.token, enclosed.inside.map CodeToken.token, enclosed.closing.token, ?_,
          isOpening, isClosing, nests, balanced⟩
        rw [taken, List.map_cons, List.map_append, List.map_singleton]
    · rename_i other
      obtain ⟨-, rfl⟩ := Prod.mk.inj (Except.ok.inj read)
      refine .inl ⟨List.append_left_eq_self.mp whole, fun next isNext => ?_⟩
      cases isNext
      exact Bool.not_eq_true _ |>.mp other

end Code

namespace Outline.ClassAmong

variable {source : Text} {tokens : List Token} {tree : SyntaxTree} {site : Site}
  {shape : ClassShape} {members : Outline}

theorem headed (isClass : ClassAmong source tokens tree site shape members)
    (located : Token.Located tokens 0 0 (Text.byteSize source) tokens) (package : Option Text)
    (ids : List NodeId) :
    (shape.decl package ids (site.placed source).source).Headed tokens
      (shape.clauses.map CodeToken.token) := by
  obtain ⟨layout⟩ := ClassLayout.exists_of_declares isClass.declares
  obtain ⟨code, keywordStart⟩ := isClass.code_of_layout located layout
  refine ⟨layout.taken.map CodeToken.token, layout.keyword.token, layout.name.token,
    layout.params.map CodeToken.token, shape.opening.token, shape.inside.map CodeToken.token,
    shape.closing.token, code, keywordStart, layout.isClass, layout.isName,
    layout.nameText.symm, ?_, ?_, layout.opening⟩
  · refine (Code.angled_of_typeParams? layout.typeParams?).imp_left fun ⟨empty, other⟩ => ?_
    refine ⟨by rw [empty, List.map_nil], ?_⟩
    cases clauses : shape.clauses with
    | nil =>
        rw [clauses] at other
        rintro _ ⟨⟩
        exact other shape.opening rfl
    | cons first rest =>
        rw [clauses] at other
        rintro _ ⟨⟩
        exact other first rfl
  · intro token listed
    obtain ⟨code, inClauses, rfl⟩ := List.mem_map.mp listed
    exact layout.clauses code inClauses

end Outline.ClassAmong

/-- A class with a superclass of its own cannot become a record. -/
theorem ClassView.superclass?_of_eligible {view : ClassView} {eligible : Eligible}
    (classified : view.classify = .eligible eligible) : view.decl.superclass? = none := by
  have given := (of_eligible classified).1
  cases extended : view.decl.superclass? with
  | none => rfl
  | some superclass =>
      rw [components, headerObstacle?, extended] at given
      cases given

namespace SyntaxTree

variable {tree : SyntaxTree}

theorem replaces_of_converted {ids : List NodeId} {report : ClassReport}
    (listed : report ∈ (tree.convert ids).reports) (converted : report.outcome.isConverted = true) :
    ∃ replacement, (tree.judge report.id).verdict = .replace replacement := by
  obtain ⟨judged, isJudged, made⟩ := List.mem_filterMap.mp listed
  obtain ⟨id, _, rfl⟩ := List.mem_map.mp isJudged
  obtain ⟨outcome, decided, rfl⟩ := Option.map_eq_some_iff.mp made
  change outcome.isConverted = true at converted
  change ∃ replacement, (tree.judge (tree.judge id).id).verdict = _
  rw [tree.judge_id]
  unfold Rebuild.outcome? at decided
  cases verdict : (tree.judge id).verdict with
  | replace replacement => exact ⟨replacement, rfl⟩
  | unchanged reason =>
      rw [verdict] at decided
      cases decided
      cases converted
  | failed violation =>
      rw [verdict] at decided
      cases decided
      cases converted

theorem not_isConverted_of_superclass? {id : NodeId} {decl : ClassDecl}
    (present : tree.class? id = some decl) {superclass : Text}
    (extended : decl.superclass? = some superclass) (ids : List NodeId) :
    ∀ report ∈ (tree.convert ids).reports, report.id = id → report.outcome.isConverted = false := by
  rintro report listed rfl
  rw [← Bool.not_eq_true]
  intro converted
  obtain ⟨replacement, replaced⟩ := replaces_of_converted listed converted
  obtain ⟨view, eligible, found, classified, _⟩ := (tree.judge_eq_replace_iff _ _).mp replaced
  obtain ⟨own, members, presentOwn, _, rfl⟩ := (tree.resolveClass_eq_some_iff _ _).mp found
  cases presentOwn.symm.trans present
  cases extended.symm.trans (ClassView.superclass?_of_eligible classified)

end SyntaxTree

/-- Tokens that stand one after the other start at different bytes. -/
theorem Token.Placed.nodup_start {offset : Nat} {tokens : List Token}
    (placed : Placed offset tokens)
    (visible : Visible tokens) : (tokens.map Token.start).Nodup := by
  refine List.pairwise_map.mpr (placed.inOrder.imp_of_mem fun {first second} listed _ ordered => ?_)
  have positive := Text.byteSize_pos_of_ne_nil _ (visible first listed)
  rw [Token.stop] at ordered
  omega

/-- The clauses of a class header are kept as the source has them, each the run after the first of
its keywords outside of angle brackets. So a class that extends another class than `Object` is not
reported as converted, whichever classes are converted with it. -/
theorem SyntaxTree.headed_of_parse {source : Text} {tree : SyntaxTree}
    (parsed : parse source = .ok tree) {id : NodeId} {decl : ClassDecl}
    (present : tree.class? id = some decl) :
    ∃ tokens, lex source = .ok tokens ∧ (∃ header, decl.Headed tokens header) ∧
      ∀ header, decl.Headed tokens header →
        (∀ front, front <+: header →
          front.countP (·.isPunct '>') ≤ front.countP (·.isPunct '<')) →
        Token.RecordsClause source header "extends" decl.superclass ∧
        Token.RecordsClause source header "implements" decl.interfaces ∧
        Token.RecordsClause source header "permits" decl.permits ∧
        ∀ clause superclass, Token.IsClause "extends".toList header clause → clause ≠ [] →
          Token.excerpt? source clause = some superclass →
          superclass.compact ≠ "Object".toList → superclass.compact ≠ "java.lang.Object".toList →
          ∀ ids, ∀ report ∈ (tree.convert ids).reports, report.id = id →
            report.outcome.isConverted = false := by
  obtain ⟨unit⟩ := ParsedUnit.exists_of_parse parsed
  obtain ⟨site, shape, members, rfl, isClass⟩ := unit.exists_class present
  obtain ⟨package, found⟩ := isClass.present
  cases found.symm.trans present
  obtain ⟨layout⟩ := ClassLayout.exists_of_declares isClass.declares
  have headed := isClass.headed unit.located package members.ids
  refine ⟨unit.tokens, unit.lex_source, ⟨_, headed⟩, fun header isHeader balanced => ?_⟩
  obtain rfl := headed.unique (unit.placed.nodup_start unit.chain.visible) isHeader
  have nests : Token.NestsAngles 0 (shape.clauses.map CodeToken.token) := by
    intro front inside
    have fewer := balanced front inside
    rw [Token.angles]
    omega
  have records (keyword : String) (isClause : ∀ code : CodeToken, code.isWord keyword = true →
      Code.isClauseKeyword code = true) :=
    Code.recordsClause_headerClause? unit.placed unit.spelled
      (layout.clauses_infix.trans isClass.code) nests isClause
  have extended := records "extends" fun code isWord => by
    rw [Code.isClauseKeyword, isWord, Bool.true_or, Bool.true_or]
  refine ⟨extended, records _ fun code isWord => ?_, records _ fun code isWord => ?_, ?_⟩
  · rw [Code.isClauseKeyword, isWord, Bool.or_true, Bool.true_or]
  · rw [Code.isClauseKeyword, isWord, Bool.or_true]
  · intro clause superclass isClause nonempty spans other otherQualified
    obtain ⟨text, spansText, recorded⟩ := extended.text clause isClause nonempty
    cases spans.symm.trans spansText
    refine not_isConverted_of_superclass? present
      (show ClassDecl.superclass? _ = some superclass.compact from ?_)
    change ((Code.headerClause? "extends" shape.clauses).map Text.compact).filter _ = _
    rw [recorded, Option.map_some, Option.filter_some, if_pos]
    simp only [Bool.and_eq_true, bne_iff_ne]
    exact ⟨other, otherQualified⟩

def boundedChild : Text := "class A<T extends I>extends B{}".toList

theorem SyntaxTree.boundedChild_headed_of_parse :
    ∃ tree decl tokens header, parse boundedChild = .ok tree ∧ tree.class? 0 = some decl ∧
      lex boundedChild = .ok tokens ∧ decl.Headed tokens header ∧
      header.map Token.text = ["extends".toList, ['B']] ∧
      Token.RecordsClause boundedChild header "extends" decl.superclass ∧
      ∀ ids, ∀ report ∈ (tree.convert ids).reports, report.id = 0 →
        report.outcome.isConverted = false := by
  have checked : (do
      let tree ← (parse boundedChild).toOption
      let decl ← tree.class? 0
      some (decl.name, decl.source.range, decl.headerPrefix)) = some (['A'], ⟨0, 31⟩, []) := by
    decide +kernel
  simp only [bind, Option.bind_eq_some_iff, Option.some.injEq, Prod.mk.injEq] at checked
  obtain ⟨tree, parsed, decl, present, named, range, bare⟩ := checked
  replace parsed := eq_ok_of_toOption parsed
  let params : List Token := [⟨.punct, [], ['<'], 7⟩, ⟨.ident, [], ['T'], 8⟩,
    ⟨.ident, [' '], "extends".toList, 10⟩, ⟨.ident, [' '], ['I'], 18⟩, ⟨.punct, [], ['>'], 19⟩]
  let superclass : Token := ⟨.ident, [' '], ['B'], 28⟩
  let header : List Token := [⟨.ident, [], "extends".toList, 20⟩, superclass]
  let keyword : Token := ⟨.ident, [], "class".toList, 0⟩
  let name : Token := ⟨.ident, [' '], ['A'], 6⟩
  let opening : Token := ⟨.punct, [], ['\x7b'], 29⟩
  let closing : Token := ⟨.punct, [], ['\x7d'], 30⟩
  let tokens := keyword :: name :: (params ++ (header ++ opening :: ([] ++ [closing])))
  have lexed : lex boundedChild = .ok tokens := eq_ok_of_toOption (by decide +kernel)
  have angled : Token.Angled params :=
    ⟨_, params.tail.dropLast, _, rfl, rfl, rfl, by decide +kernel, rfl⟩
  have headed : decl.Headed tokens header := by
    refine ⟨[], keyword, name, params, opening, [], closing, ?_, ?_, rfl, rfl, named.symm,
      .inr angled, by decide, rfl⟩
    · rw [range]
      decide +kernel
    · rw [range, bare]
      rfl
  obtain ⟨_, read, -, all⟩ := headed_of_parse parsed present
  cases lexed.symm.trans read
  have balanced : ∀ front ∈ header.inits,
      front.countP (·.isPunct '>') ≤ front.countP (·.isPunct '<') := by
    decide +kernel
  obtain ⟨extended, -, -, stays⟩ := all header headed fun front inside =>
    balanced front ((List.mem_inits front header).mpr inside)
  have clause : Token.IsClause "extends".toList header [superclass] :=
    ⟨[], _, [], rfl, ⟨rfl, rfl, Token.inAngles_nil _ _⟩,
      Token.inAngles_cons.mpr ⟨by decide, Token.inAngles_nil _ _⟩, .inl rfl⟩
  exact ⟨tree, decl, tokens, header, parsed, present, lexed, headed, rfl, extended,
    stays [superclass] ['B'] clause (List.cons_ne_nil _ _) (by decide +kernel) (by decide)
      (by decide)⟩

end JavaRecords
