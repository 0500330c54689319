import JavaRecords.Proofs.Conversion.Resolved
import JavaRecords.Proofs.Parse.Ranges

set_option autoImplicit false

namespace JavaRecords

def Token.codeBetween (tokens : List Token) (start stop : Nat) : List Token :=
  (between tokens start stop).filter fun token => !token.isComment

/-- The body of a declaration is a block of its source, at the end of the declaration. `block` are
the tokens of the block that are not comments, from its opening to its closing brace. -/
structure Node.HasBlock (node : Node) (source : Text) (tokens : List Token) (body : Body)
    (block : List Token) : Prop where
  place : ∃ excerpt start, node.source? = some excerpt ∧
    Text.slice? source start excerpt.range.stop = some body.text ∧
    block = Token.codeBetween tokens start excerpt.range.stop
  braces : ∃ opening inside closing, block = opening :: (inside ++ [closing]) ∧
    opening.isPunct '{' = true ∧ closing.isPunct '}' = true

theorem Text.slice?_of_append {source left right : Text} {start stop next : Nat}
    (sliced : slice? source start stop = some (left ++ right))
    (ends : next + byteSize right = stop) : slice? source next stop = some right := by
  unfold slice? at sliced
  split at sliced
  · rename_i ordered
    obtain ⟨⟨before, behind⟩, first, sliced⟩ := Option.bind_eq_some_iff.mp sliced
    obtain ⟨⟨middle, after⟩, second, same⟩ := Option.bind_eq_some_iff.mp sliced
    cases same
    obtain ⟨whole, low⟩ := append_of_splitAt? first
    obtain ⟨joined, high⟩ := append_of_splitAt? second
    have cut := slice?_append (before ++ left) right after
    have spelled : source = before ++ left ++ right ++ after := by
      rw [← whole, ← joined]
      simp
    rw [byteSize_append] at high
    have start : byteSize (before ++ left) = next := by
      rw [byteSize_append]
      omega
    rw [← spelled, start, ends] at cut
    exact cut
  · cases sliced

theorem Text.stop_of_slice? {source text : Text} {start stop : Nat}
    (sliced : slice? source start stop = some text) : start + byteSize text = stop := by
  unfold slice? at sliced
  split at sliced
  · obtain ⟨⟨before, behind⟩, _, sliced⟩ := Option.bind_eq_some_iff.mp sliced
    obtain ⟨⟨middle, after⟩, second, same⟩ := Option.bind_eq_some_iff.mp sliced
    cases same
    have size := (append_of_splitAt? second).2
    omega
  · cases sliced

theorem Node.HasBlock.eq_codeBetween {node : Node} {source : Text} {tokens block : List Token}
    {body : Body} {excerpt : Excerpt} (hasBlock : node.HasBlock source tokens body block)
    (isSource : node.source? = some excerpt) :
    block = Token.codeBetween tokens (excerpt.range.stop - Text.byteSize body.text)
      excerpt.range.stop := by
  obtain ⟨other, start, isOther, sliced, same⟩ := hasBlock.place
  cases isSource.symm.trans isOther
  rw [same, ← Text.stop_of_slice? sliced, Nat.add_sub_cancel]

namespace Code

theorem exists_text_of_suffix {code block : List CodeToken} (suffix : block <:+ code)
    (nonempty : block ≠ []) : ∃ before, text code = before ++ text block := by
  obtain ⟨front, rfl⟩ := suffix
  cases front with
  | nil => exact ⟨[], rfl⟩
  | cons first rest =>
      obtain ⟨opening, inside, rfl⟩ := List.exists_cons_of_ne_nil nonempty
      refine ⟨text (first :: rest) ++ opening.lead, ?_⟩
      simp

/-- Where the last tokens of a run stand among its tokens. -/
theorem exists_bare_of_suffix {code block : List CodeToken} (suffix : block <:+ code)
    (nonempty : block ≠ []) : ∃ before, bare code = before ++ bare block := by
  obtain ⟨front, rfl⟩ := suffix
  cases front with
  | nil => exact ⟨[], rfl⟩
  | cons first rest =>
      obtain ⟨opening, inside, rfl⟩ := List.exists_cons_of_ne_nil nonempty
      refine ⟨first.token :: (flat rest ++ opening.comments), ?_⟩
      simp [bare]

end Code

namespace Outline

variable {source : Text} {tokens : List Token} {tree : SyntaxTree}

/-- The last tokens of a declaration stand at the end of its range. -/
theorem Among.located_block {site : Site} {node : Node} {rest : Outline}
    (among : (leaf site node rest).Among source tokens tree)
    (located : Token.Located tokens 0 0 (Text.byteSize source) tokens) {opening : CodeToken}
    {inside : List CodeToken} (suffix : opening :: inside <:+ site.piece.tokens) :
    Token.between tokens opening.start site.piece.last.stop = Code.bare (opening :: inside) ∧
      opening.start + Text.byteSize (Code.text (opening :: inside)) = site.piece.last.stop := by
  obtain ⟨before, after, split, tiles⟩ := among.placed
  rw [Outline.tokens, List.append_assoc] at split
  have own : Token.Located tokens 0 0 (Text.byteSize source)
      (before ++ (site.tokens ++ (rest.tokens ++ after))) := by
    rw [← split]
    exact located
  obtain ⟨_, whole, _⟩ := located_site own (by rw [Nat.zero_add]; exact tiles.1)
  obtain ⟨front, bare⟩ := Code.exists_bare_of_suffix suffix (List.cons_ne_nil _ _)
  have size : Text.byteSize (Token.spell (Code.bare (opening :: inside))) =
      Text.byteSize opening.token.space + Text.byteSize (Code.text (opening :: inside)) := by
    rw [Code.spell_bare, Text.byteSize_append, Code.spell_run]
  have last := tiles.1.last
  rw [bare, Token.spell_append, Text.byteSize_append] at last
  rw [bare, ← List.append_nil (Code.bare (opening :: inside))] at whole
  change Token.Located _ _ _ _ (front ++ (opening.token :: Code.flat inside ++ [])) at whole
  change Text.byteSize (Token.spell (opening.token :: Code.flat inside)) = _ at size
  change _ = _ + (_ + Text.byteSize (Token.spell (opening.token :: Code.flat inside))) at last
  obtain ⟨_, run, _⟩ := whole.cut
  have start : opening.start = _ := (Token.placed_cons.mp run.placed).1
  simp only [Token.spell_append, Text.byteSize_append, Nat.zero_add] at start run
  have stop : site.piece.last.stop = Text.byteSize (Token.spell before) +
      Text.byteSize (Token.spell site.lead) + Text.byteSize (Token.spell front) +
      Text.byteSize (Token.spell (opening.token :: Code.flat inside)) := by
    omega
  refine ⟨?_, by omega⟩
  rw [stop]
  exact run.tokens

end Outline

namespace ParsedUnit

variable {source : Text} {tree : SyntaxTree} (unit : ParsedUnit source tree)

include unit

/-- The body of a declaration is read from the tokens of its block. -/
theorem exists_block {id : NodeId} {node : Node} (found : tree.node? id = some node) {label : Text}
    {body : Body} (labelled : node.labelledBody? = some (label, body)) :
    ∃ block, block <:+: (Code.ofTokens unit.tokens).tokens ∧ Code.Braced block ∧
      Code.body block = .ok body ∧
      node.HasBlock source unit.tokens body (block.map CodeToken.token) := by
  rcases unit.exists_declaration (by rw [found]; rfl) with
    ⟨site, own, rest, rfl, among⟩ | ⟨site, shape, members, rfl, isClass⟩
  · cases among.stands.1.symm.trans found
    obtain ⟨block, suffix, braced, isBody⟩ := among.exists_block labelled
    have within := suffix.isInfix.trans (among.first_infix rfl)
    have bound := (Code.bound_ofTokens unit.tokens).1
    obtain ⟨excerpt, isSource, here⟩ := unit.exists_excerpt found
    cases among.plain.source?_eq.symm.trans isSource
    refine ⟨block, within, braced, isBody, ?_⟩
    obtain ⟨opening, inside, closing, rfl, isOpening, isClosing⟩ := braced
    obtain ⟨tokens, stop⟩ := among.located_block unit.located suffix
    refine ⟨⟨_, opening.start, isSource, ?_, ?_⟩, opening.token, inside.map CodeToken.token,
      closing.token, by simp, isOpening, isClosing⟩
    · obtain ⟨before, text⟩ := Code.exists_text_of_suffix suffix (List.cons_ne_nil _ _)
      have slice := here.text
      change Text.slice? source _ _ = some (Code.text site.piece.tokens) at slice
      rw [text] at slice
      rw [Code.text_of_body isBody]
      exact Text.slice?_of_append slice stop
    · change _ = (Token.between unit.tokens opening.start site.piece.last.stop).filter _
      rw [tokens, Code.filter_bare (bound.of_infix within)]
  · obtain ⟨package, present⟩ := isClass.present
    cases (SyntaxTree.node?_of_class? present).symm.trans found
    cases labelled

end ParsedUnit

end JavaRecords
