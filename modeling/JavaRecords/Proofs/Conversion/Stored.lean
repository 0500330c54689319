import JavaRecords.Proofs.Parse.Values

set_option autoImplicit false

namespace JavaRecords

/-- A member stores a part of its source as text, the block of its body or its initial value.
`block` are the tokens of the part that are not comments. -/
inductive Node.StoresCode (source : Text) (tokens : List Token) :
    Node → Text → List Token → Prop
  | body {node : Node} {label : Text} {body : Body} {block : List Token}
      (labelled : node.labelledBody? = some (label, body))
      (hasBlock : node.HasBlock source tokens body block) :
      StoresCode source tokens node body.text block
  | value {decl : FieldDecl} {value : Text} {block : List Token}
      (initial : decl.initializer = some value)
      (hasValue : decl.HasValue source tokens value block) :
      StoresCode source tokens (.field decl) value block

/-- The code that a member stores is its body or its initial value. -/
theorem Node.cases_writingCode? {node : Node} {stored : Text} {params : List Text}
    (stores : node.writingCode? = some (stored, params)) :
    (∃ label body, node.labelledBody? = some (label, body) ∧ stored = body.text) ∨
      ∃ decl, node = .field decl ∧ decl.initializer = some stored := by
  cases node with
  | constructor decl =>
      cases stores
      exact Or.inl ⟨_, _, rfl, rfl⟩
  | method decl =>
      obtain ⟨body, isBody, same⟩ := Option.map_eq_some_iff.mp stores
      cases same
      exact Or.inl ⟨_, body, by rw [labelledBody?, isBody]; rfl, rfl⟩
  | initializer decl =>
      cases stores
      exact Or.inl ⟨_, _, rfl, rfl⟩
  | field decl =>
      obtain ⟨value, isValue, same⟩ := Option.map_eq_some_iff.mp stores
      cases same
      exact Or.inr ⟨decl, rfl, isValue⟩
  | _ => cases stores

/-- What the scans of a text read are tokens that stand in a source, moved to the start of
the text. -/
structure ScansAs (stored : Text) (block : List Token) (code : Code) : Prop where
  read : Code.read stored = .ok code
  writes : scanWrites stored = .ok (Code.writesFrom [] code.tokens)
  declared : scanDeclaredNames stored = .ok (Code.declaredFrom [] [] code.tokens)
  tokens : ∃ first, block.head? = some first ∧
    List.Forall₂ (Token.Lowered first.start) block (code.tokens.map CodeToken.token)

namespace ParsedUnit

variable {source : Text} {tree : SyntaxTree} (unit : ParsedUnit source tree)

include unit

/-- The code that a member stores is a run of the tokens of the source. -/
theorem exists_stored {id : NodeId} {node : Node} (found : tree.node? id = some node)
    {stored : Text} {params : List Text} (stores : node.writingCode? = some (stored, params)) :
    ∃ first rest, first :: rest <:+: (Code.ofTokens unit.tokens).tokens ∧
      stored = Code.text (first :: rest) ∧
      node.StoresCode source unit.tokens stored ((first :: rest).map CodeToken.token) := by
  rcases Node.cases_writingCode? stores with ⟨label, body, labelled, rfl⟩ | ⟨decl, rfl, initial⟩
  · obtain ⟨block, inside, ⟨opening, within, closing, rfl, _⟩, isBody, hasBlock⟩ :=
      unit.exists_block found labelled
    exact ⟨opening, _, inside, Code.text_of_body isBody, .body labelled hasBlock⟩
  · obtain ⟨first, rest, inside, isText, hasValue⟩ := unit.exists_value found initial
    exact ⟨first, rest, inside, isText, .value initial hasValue⟩

/-- The scans read the code that a member stores as its tokens in the source. -/
theorem exists_scansAs {id : NodeId} {node : Node} (found : tree.node? id = some node)
    {stored : Text} {params : List Text} (stores : node.writingCode? = some (stored, params)) :
    ∃ block code, node.StoresCode source unit.tokens stored block ∧ ScansAs stored block code := by
  obtain ⟨first, rest, inside, isText, storesCode⟩ := unit.exists_stored found stores
  obtain ⟨code, read, _, moved⟩ := Code.exists_read_text unit.chain unit.placed inside
  rw [← isText] at read
  refine ⟨_, code, storesCode, read, ?_, ?_, first.token, rfl, Token.forall₂_lowered moved⟩
  · rw [scanWrites, read]
    rfl
  · rw [scanDeclaredNames, read]
    rfl

end ParsedUnit

theorem exists_split_of_places {tokens : List Token} {i j : Nat} {first last : Token}
    (ordered : i ≤ j) (isFirst : tokens[i]? = some first) (isLast : tokens[j]? = some last) :
    ∃ rest, (tokens.take (j + 1)).drop i = first :: rest ∧
      tokens = tokens.take i ++ (first :: rest ++ tokens.drop (j + 1)) ∧
      (first :: rest).getLast? = some last := by
  obtain ⟨_, rfl⟩ := List.getElem?_eq_some_iff.mp isFirst
  have within := (List.getElem?_eq_some_iff.mp isLast).1
  have part : (tokens.take (j + 1)).drop i = tokens[i] :: (tokens.take (j + 1)).drop (i + 1) := by
    rw [List.drop_eq_getElem_cons (by rw [List.length_take]; omega), List.getElem_take]
  refine ⟨_, part, ?_, ?_⟩
  · have front : (tokens.take (j + 1)).take i = tokens.take i := by
      rw [List.take_take, Nat.min_eq_left (by omega)]
    rw [← part, ← front, ← List.append_assoc, List.take_append_drop, List.take_append_drop]
  · rw [← part, List.getLast?_eq_getElem?, List.length_drop, List.length_take, List.getElem?_drop,
      List.getElem?_take, if_pos (by omega), ← isLast]
    congr 1
    omega

/-- The text of a source from one token to another is read as the tokens between them, moved to the
start. So the scans of the bodies and initial values of its members do not fail, and they read the
tokens that these stand for in the source. -/
theorem lex_slice_and_stored {source : Text} {tokens : List Token}
    (lexed : lex source = .ok tokens) :
    (∀ i j first last, i ≤ j → tokens[i]? = some first → tokens[j]? = some last →
      ∃ part others, source.slice? first.start last.stop = some part ∧ lex part = .ok others ∧
        List.Forall₂ (Token.Lowered first.start) ((tokens.take (j + 1)).drop i) others) ∧
    ∀ tree, parse source = .ok tree → ∀ id node stored params, tree.node? id = some node →
      node.writingCode? = some (stored, params) →
        ∃ block code, node.StoresCode source tokens stored block ∧ ScansAs stored block code := by
  constructor
  · intro i j first last ordered isFirst isLast
    obtain ⟨rest, part, split, ends⟩ := exists_split_of_places ordered isFirst isLast
    rw [part]
    exact exists_lex_slice lexed split ends
  · intro tree parsed id node stored params found stores
    obtain ⟨unit⟩ := ParsedUnit.exists_of_parse parsed
    have same : unit.tokens = tokens := by
      rw [unit.lex_source] at lexed
      exact Except.ok.inj lexed
    rw [← same]
    exact unit.exists_scansAs found stores

/-- A class whose members store code of all kinds, with comments and literals that hold braces. -/
def storing : Text :=
  ("class P\x7bint x=.5/*+z*/+y;static\x7bi=0;//\x7d\n\x7dP(int a)\x7bthis.x=a;\x7d" ++
    "char m()\x7breturn '\x7d';\x7dint n;\x7d").toList

theorem storing_lex_slice_and_stored : ∃ tokens tree, lex storing = .ok tokens ∧
    parse storing = .ok tree ∧
    ((List.range 5).map fun id => (tree.node? id).bind fun node => node.writingCode?.map Prod.fst) =
      [some ".5/*+z*/+y".toList, some "\x7bi=0;//\x7d\n\x7d".toList,
        some "\x7bthis.x=a;\x7d".toList, some "\x7breturn '\x7d';\x7d".toList, none] ∧
    (∀ i j first last, i ≤ j → tokens[i]? = some first → tokens[j]? = some last →
      ∃ part others, storing.slice? first.start last.stop = some part ∧ lex part = .ok others ∧
        List.Forall₂ (Token.Lowered first.start) ((tokens.take (j + 1)).drop i) others) ∧
    ∀ id node stored params, tree.node? id = some node → node.writingCode? = some (stored, params) →
      ∃ block code, node.StoresCode storing tokens stored block ∧ ScansAs stored block code := by
  have checked : ((lex storing).toOption.bind fun _ => (parse storing).toOption.bind fun tree =>
      some ((List.range 5).map fun id =>
        (tree.node? id).bind fun node => node.writingCode?.map Prod.fst)) =
      some [some ".5/*+z*/+y".toList, some "\x7bi=0;//\x7d\n\x7d".toList,
        some "\x7bthis.x=a;\x7d".toList, some "\x7breturn '\x7d';\x7d".toList, none] := by
    decide +kernel
  simp only [Option.bind_eq_some_iff, Option.some.injEq] at checked
  obtain ⟨tokens, lexed, tree, parsed, codes⟩ := checked
  replace lexed := eq_ok_of_toOption lexed
  replace parsed := eq_ok_of_toOption parsed
  obtain ⟨slices, scans⟩ := lex_slice_and_stored lexed
  exact ⟨tokens, tree, lexed, parsed, codes, slices, scans tree parsed⟩

end JavaRecords
