import JavaRecords.Proofs.Code.Clean
import JavaRecords.Proofs.Code.Nesting
import JavaRecords.Proofs.Code.Operators

set_option autoImplicit false

namespace JavaRecords

namespace PieceScan

/-- Two scans that stand alike, wherever their blocks were opened. -/
structure Level (scan other : PieceScan) : Prop where
  parens : other.parens = scan.parens
  isOpen : other.isOpen = scan.isOpen
  braces : other.braces = scan.braces

theorem Level.refl (scan : PieceScan) : scan.Level scan := ⟨rfl, rfl, rfl⟩

theorem Level.step {scan other : PieceScan} {code token : CodeToken} (level : scan.Level other)
    (same : code.Same token) :
    Option.Rel Level (scan.step Code.declarationRule code none)
      (other.step Code.declarationRule token none) := by
  obtain ⟨parens, isOpen, depth, opened⟩ := scan
  obtain ⟨_, _, _, start⟩ := other
  obtain ⟨isParens, isOpens, isBraces⟩ := level
  dsimp only at isParens isOpens isBraces
  subst isParens isOpens isBraces
  have punct := same.isPunct
  have keeps : Code.declarationRule.keepsOpen token = Code.declarationRule.keepsOpen code := by
    simp only [Code.declarationRule, same.assign]
  rename_i depth
  cases depth with
  | zero =>
      simp only [PieceScan.step, punct, keeps]
      split_ifs <;> constructor <;> exact ⟨rfl, rfl, rfl⟩
  | succ depth =>
      simp only [PieceScan.step, punct]
      split_ifs <;> constructor <;> exact ⟨rfl, rfl, rfl⟩

theorem Level.step_eq_some {scan other next : PieceScan} {code token : CodeToken}
    (level : scan.Level other) (same : code.Same token)
    (goes : scan.step Code.declarationRule code none = some next) :
    ∃ later, other.step Code.declarationRule token none = some later ∧ next.Level later := by
  have steps := level.step same
  rw [goes] at steps
  generalize other.step Code.declarationRule token none = stepped at steps ⊢
  cases steps with
  | some levels => exact ⟨_, rfl, levels⟩

theorem Level.step_eq_none {scan other : PieceScan} {code token : CodeToken}
    (level : scan.Level other) (same : code.Same token)
    (ends : scan.step Code.declarationRule code none = none) :
    other.step Code.declarationRule token none = none := by
  have steps := level.step same
  rw [ends] at steps
  generalize other.step Code.declarationRule token none = stepped at steps ⊢
  cases steps
  rfl

end PieceScan

namespace Code

open PieceScan (Level)

theorem Ends.same {scan other : PieceScan} {code tokens : List CodeToken}
    (ends : Ends scan code) (level : scan.Level other)
    (same : List.Forall₂ CodeToken.Same code tokens) : Ends other tokens := by
  induction ends generalizing other tokens with
  | @last scan code ends =>
      obtain ⟨token, rest, here, none, rfl⟩ := List.forall₂_cons_left_iff.mp same
      cases none
      exact .last (level.step_eq_none here ends)
  | @step scan next code rest goes _ ih =>
      obtain ⟨token, others, here, later, rfl⟩ := List.forall₂_cons_left_iff.mp same
      obtain ⟨stepped, found, levels⟩ := level.step_eq_some here goes
      exact .step found (ih levels later)

theorem Completes.same {scan other : PieceScan} {code tokens : List CodeToken}
    (completes : Completes scan code) (level : scan.Level other)
    (same : List.Forall₂ CodeToken.Same code tokens) : Completes other tokens := by
  induction completes generalizing other tokens with
  | out outside =>
      cases same
      exact .out (level.braces.trans outside)
  | @last scan code ends =>
      exact ((Ends.last ends).same level same).completes
  | @step scan next code rest goes _ ih =>
      obtain ⟨token, others, here, later, rfl⟩ := List.forall₂_cons_left_iff.mp same
      obtain ⟨stepped, found, levels⟩ := level.step_eq_some here goes
      exact .step found (ih levels later)

end Code

theorem PieceScan.across_same {scan other next : PieceScan} {code tokens : List CodeToken}
    (level : scan.Level other) (same : List.Forall₂ CodeToken.Same code tokens)
    (goes : scan.across code = some next) : ∃ later, other.across tokens = some later ∧
      next.Level later := by
  induction same generalizing scan other with
  | nil =>
      cases goes
      exact ⟨other, rfl, level⟩
  | @cons code token rest others here _ ih =>
      obtain ⟨middle, steps, goesRest⟩ := Option.bind_eq_some_iff.mp goes
      obtain ⟨stepped, found, levels⟩ := level.step_eq_some here steps
      rw [across_cons found]
      exact ih levels goesRest

namespace Code

open Token (Nested)

/-- Code that stands in a source and is nested. -/
structure Proper (code : List CodeToken) : Prop extends Standing code where
  bound : Bound code
  chain : ∃ tail, Token.Chain (flat code) tail
  nested : Nested (code.map CodeToken.token)

/-- A declaration ends with a semicolon or a brace. -/
theorem Ends.stops {scan : PieceScan} {code : List CodeToken} (ends : Ends scan code) :
    Token.Stops (code.map CodeToken.token).reverse := by
  induction ends with
  | @last scan code ends =>
      intro previous isLast
      cases isLast
      unfold PieceScan.step at ends
      split at ends
      · split_ifs at ends with opening closing
        exact .inr (.inr closing)
      · split_ifs at ends with opening closing inside semicolon
        exact .inl semicolon
  | @step scan next code rest _ others ih =>
      have filled : (rest.map CodeToken.token).reverse ≠ [] := by cases others <;> simp
      intro previous isLast
      rw [List.map_cons, List.reverse_cons, List.head?_append_of_ne_nil _ filled] at isLast
      exact ih previous isLast

theorem apart_of_stops {code : List CodeToken}
    (stops : Token.Stops (code.map CodeToken.token).reverse)
    (after : List Token) : Apart code after := by
  intro last isLast isEquals
  have found : (code.map CodeToken.token).reverse.head? = some last.token := by
    rw [List.head?_reverse, List.getLast?_map, Option.mem_def.mp isLast]
    rfl
  have punct : ∀ c, last.token.isPunct c = ('=' == c) := Token.isPunct_eq isEquals
  rcases stops last.token found with stop | stop | stop <;> simp [punct] at stop

/-- A nested part of proper code is proper if no operator reaches into it. -/
theorem Proper.part {left middle right : List CodeToken}
    (proper : Proper (left ++ (middle ++ right)))
    (stops : Token.Stops (left.map CodeToken.token).reverse)
    (apart : Apart middle (right.map CodeToken.token))
    (nested : Nested (middle.map CodeToken.token)) : Proper middle := by
  have inside : middle <:+: left ++ (middle ++ right) := ⟨left, right, by simp⟩
  obtain ⟨tail, chain⟩ := proper.chain
  exact ⟨(proper.toStanding.right stops).left apart, proper.bound.of_infix inside,
    chain_of_infix chain inside, nested⟩

theorem Proper.cons {piece : Piece} {rest : List Piece} (cut : Cut (piece :: rest))
    (proper : Proper ((piece :: rest).flatMap Piece.tokens)) :
    Proper piece.tokens ∧ Cut rest ∧ Proper (rest.flatMap Piece.tokens) := by
  have own := cut.nested proper.nested piece List.mem_cons_self
  have nested := proper.nested
  rw [List.flatMap_cons] at proper
  rw [List.flatMap_cons, List.map_append] at nested
  have others := nested.of_append own
  cases cut with
  | last _ =>
      refine ⟨by simpa using proper, .nil, ?_⟩
      exact ⟨⟨⟨0, rfl⟩, trivial⟩, fun _ listed =>
        absurd listed List.not_mem_nil, ⟨[], trivial⟩, rfl⟩
  | cons ends cut =>
      refine ⟨@Proper.part [] _ _ proper Token.stops_nil (apart_of_stops ends.stops _) own, cut, ?_⟩
      rw [← List.append_nil (rest.flatMap Piece.tokens)] at proper
      exact proper.part ends.stops (fun _ _ _ _ absent => (by cases absent)) others

theorem nested_of_modifiers {code : List CodeToken} {run : ModifierRun} {next : List Char}
    (marked : ∀ token ∈ code, token.Marked)
    (nests : Token.nest [] (code.map CodeToken.token) = some next)
    (read : modifiers code = .ok run) :
    ∀ written ∈ run.modifiers.annotations, ∃ part, part <:+: code ∧ written = text part ∧
      Nested (part.map CodeToken.token) := by
  fun_induction modifiers code generalizing run with
  | case1 => cases read
  | case2 =>
      cases read
      exact fun _ listed => absurd listed List.not_mem_nil
  | case3 => cases read
  | case4 code step found inner more ih =>
      cases read
      obtain ⟨joined, _, annotation⟩ := append_of_modifier? found
      rw [← joined, List.map_append, Token.nest_append] at nests
      obtain ⟨middle, nestsStep, nestsRest⟩ := Option.bind_eq_some_iff.mp nests
      have none := PieceScan.nest_of_over (across_modifier? marked found) nestsStep
      rw [none] at nestsStep nestsRest
      intro written listed
      rcases List.mem_append.mp listed with here | later
      · rcases annotation with absent | single
        · rw [absent] at here
          cases here
        · rw [single, List.mem_singleton] at here
          exact ⟨step.taken, joined ▸ (List.prefix_append _ _).isInfix, here, nestsStep⟩
      · have inside : step.rest <:+: code := joined ▸ (List.suffix_append _ _).isInfix
        obtain ⟨part, isPart, same, nested⟩ :=
          ih (fun token listed => marked token (inside.subset listed)) nestsRest more written later
        exact ⟨part, isPart.trans inside, same, nested⟩

end Code

namespace PieceScan

theorem step_fresh_of_plain {code : CodeToken} (marked : code.Marked)
    (plain : code.token.isPlain = true) : fresh.step Code.declarationRule code none =
      some fresh := by
  have punct : ∀ c ∈ ['(', ')', '{', '}', ';', '='], code.isPunct c = false := fun _ listed =>
    Token.isPunct_of_isPlain plain listed
  have silent : code.assign.isSome = false := by
    cases assigns : code.assign.isSome with
    | false => rfl
    | true => simpa [punct] using marked assigns
  simp [step, fresh, punct, Code.declarationRule, silent]

theorem across_fresh_of_plain {code : List CodeToken} (marked : ∀ token ∈ code, token.Marked)
    (plain : ∀ token ∈ code, token.token.isPlain = true) : fresh.across code = some fresh := by
  induction code with
  | nil => rfl
  | cons first rest ih =>
      rw [across_cons (step_fresh_of_plain (marked first List.mem_cons_self)
        (plain first List.mem_cons_self))]
      exact ih (fun token listed => marked token (List.mem_cons_of_mem _ listed))
        fun token listed => plain token (List.mem_cons_of_mem _ listed)

end PieceScan

namespace ClassLayout

open Token (Nested)

variable {site : Site} {shape : ClassShape} (layout : ClassLayout site.piece shape)

include layout

/-- The tokens between the name of a class and the brace of its body. -/
def header : List CodeToken := layout.params ++ shape.clauses

theorem front_eq_header : site.front shape = layout.taken ++
    (layout.keyword :: layout.name :: layout.header ++ [shape.opening]) := by
  rw [layout.front_eq, header]
  simp

theorem isPlain_named (plain : ∀ code ∈ layout.header, code.token.isPlain = true) :
    ∀ code ∈ layout.keyword :: layout.name :: layout.header, code.token.isPlain = true := by
  intro code listed
  rcases List.mem_cons.mp listed with rfl | listed
  · exact Token.isPlain_of_isIdent (CodeToken.isIdent_of_isWord layout.isClass)
  · rcases List.mem_cons.mp listed with rfl | listed
    · exact Token.isPlain_of_isIdent layout.isName
    · exact plain code listed

/-- The scan of a class stands in one block after its header. -/
theorem across_front (plain : ∀ code ∈ layout.header, code.token.isPlain = true)
    (marked : ∀ code ∈ site.piece.tokens, code.Marked) :
    PieceScan.fresh.across (site.front shape) = some ⟨0, false, 1, shape.opening.start⟩ := by
  have inside : ∀ code ∈ layout.keyword :: layout.name :: layout.header, code.Marked := by
    intro code listed
    refine marked code ?_
    rw [layout.tokens_eq, layout.front_eq_header]
    exact List.mem_append_left _ (List.mem_append_right _ (List.mem_append_left _ listed))
  rw [layout.front_eq_header,
    PieceScan.across_of_over (Code.across_modifiers marked layout.modifiers),
    PieceScan.across_of_over (PieceScan.across_fresh_of_plain inside (layout.isPlain_named plain)),
    PieceScan.across_cons (PieceScan.step_fresh_of_brace layout.opening)]
  rfl

theorem nested_taken (marked : ∀ code ∈ site.piece.tokens, code.Marked)
    (nested : Nested (site.piece.tokens.map CodeToken.token)) :
    Nested (layout.taken.map CodeToken.token) := by
  rw [Nested, layout.tokens, List.map_append, Token.nest_append] at nested
  obtain ⟨next, nests, _⟩ := Option.bind_eq_some_iff.mp nested
  rw [Nested, nests, PieceScan.nest_of_over (Code.across_modifiers marked layout.modifiers) nests]

/-- One brace is open after the header of a class. -/
theorem nest_front (plain : ∀ code ∈ layout.header, code.token.isPlain = true)
    (marked : ∀ code ∈ site.piece.tokens, code.Marked)
    (nested : Nested (site.piece.tokens.map CodeToken.token)) :
    Token.nest [] ((site.front shape).map CodeToken.token) = some ['{'] := by
  have named : Nested ((layout.keyword :: layout.name :: layout.header).map CodeToken.token) :=
    Token.nested_of_plain fun token listed => by
      obtain ⟨code, among, rfl⟩ := List.mem_map.mp listed
      exact layout.isPlain_named plain code among
  have before := (layout.nested_taken marked nested).append named
  rw [layout.front_eq_header, ← List.append_assoc, List.map_append, List.map_append,
    Token.nest_append, before.nest, Option.bind_some, List.map_singleton, Token.nest_cons,
    Token.turn_of_opening layout.opening (by decide)]
  rfl

theorem nested_inside (plain : ∀ code ∈ layout.header, code.token.isPlain = true)
    (marked : ∀ code ∈ site.piece.tokens, code.Marked)
    (nested : Nested (site.piece.tokens.map CodeToken.token))
    (completes : Code.Completes .fresh site.piece.tokens) :
    Nested (shape.inside.map CodeToken.token) := by
  have opened := layout.nest_front plain marked nested
  rw [Nested, layout.tokens_eq, List.map_append, Token.nest_append, opened, Option.bind_some,
    List.map_append, Token.nest_append] at nested
  obtain ⟨next, nests, closes⟩ := Option.bind_eq_some_iff.mp nested
  rw [List.map_singleton, Token.nest_cons, Token.turn_of_brace layout.closing] at closes
  obtain ⟨last, turns, isLast⟩ := Option.bind_eq_some_iff.mp closes
  cases isLast
  -- only the brace that the header opened is open before the last token
  have one : next = ['{'] := by
    split_ifs at turns with head
    obtain ⟨tail, rfl⟩ := List.head?_eq_some_iff.mp head
    cases turns
    rfl
  have goes : ∃ later, PieceScan.across ⟨0, false, 1, shape.opening.start⟩ shape.inside =
    some later := by
    rw [layout.tokens_eq, ← List.append_assoc] at completes
    obtain ⟨later, goes⟩ := completes.goes (List.cons_ne_nil _ _)
    rw [PieceScan.across_of_over (layout.across_front plain marked)] at goes
    exact ⟨later, goes⟩
  obtain ⟨later, goes⟩ := goes
  obtain ⟨inner, inside, same⟩ := @PieceScan.nest_inside [] _ _ _ _ goes nests
  rw [one] at same
  have none : inner = [] := by simpa using same.symm
  rw [Nested, inside, none]

theorem stops_front : Token.Stops ((site.front shape).map CodeToken.token).reverse := by
  rw [layout.front_eq_header, ← List.append_assoc, List.map_append, List.reverse_append]
  intro previous isLast
  cases isLast
  exact .inr (.inl layout.opening)

/-- The body of a class is proper. -/
theorem proper_inside (plain : ∀ code ∈ layout.header, code.token.isPlain = true)
    (proper : Code.Proper site.piece.tokens) (completes : Code.Completes .fresh site.piece.tokens) :
    Code.Proper shape.inside := by
  have nested := layout.nested_inside plain proper.marks.marked proper.nested completes
  rw [layout.tokens_eq] at proper
  refine proper.part layout.stops_front ?_ nested
  intro _ _ _ closing isClosing
  cases isClosing
  exact CodeToken.isPunct_of_isPunct layout.closing '='

end ClassLayout

end JavaRecords
