import JavaRecords.Proofs.Code.Nesting
import Mathlib.Data.List.Induction
import Mathlib.Data.List.Infix

set_option autoImplicit false

namespace JavaRecords

namespace Token

def angles (tokens : List Token) : Int :=
  tokens.countP (·.isPunct '<') - tokens.countP (·.isPunct '>')

/-- No first part of the tokens closes more angle brackets than it opens and `opened` before it. -/
def NestsAngles (opened : Int) (tokens : List Token) : Prop :=
  ∀ front, front <+: tokens → 0 ≤ opened + angles front

instance (opened : Int) (tokens : List Token) : Decidable (NestsAngles opened tokens) :=
  decidable_of_iff (∀ front ∈ tokens.inits, 0 ≤ opened + angles front)
    (by simp only [List.mem_inits, NestsAngles])

/-- The tokens that pass a test all stand in angle brackets, where `opened` are open before. -/
def InAngles (test : Token → Bool) (opened : Int) (tokens : List Token) : Prop :=
  ∀ before token after, tokens = before ++ token :: after → test token = true →
    opened + angles before ≠ 0

def isClauseKeyword (token : Token) : Bool :=
  token.isWord "extends".toList || token.isWord "implements".toList ||
    token.isWord "permits".toList

/-- The clause of a keyword in a header: the tokens after the first such keyword outside of angle
brackets, up to the next keyword of a clause outside of angle brackets or the end of the header. -/
def IsClause (keyword : Text) (header clause : List Token) : Prop :=
  ∃ before key behind, header = before ++ key :: (clause ++ behind) ∧
    (key.isWord keyword = true ∧ angles before = 0 ∧ InAngles (·.isWord keyword) 0 before) ∧
    InAngles isClauseKeyword 0 clause ∧
    (behind = [] ∨ angles clause = 0 ∧ ∃ next ∈ behind.head?, isClauseKeyword next = true)

/-- Tokens in a pair of angle brackets that close each other. -/
def Angled (tokens : List Token) : Prop :=
  ∃ opening inside closing, tokens = opening :: (inside ++ [closing]) ∧
    opening.isPunct '<' = true ∧ closing.isPunct '>' = true ∧
    NestsAngles 0 inside ∧ angles inside = 0

theorem angles_nil : angles [] = 0 := rfl

theorem angles_singleton (token : Token) : angles [token] =
    if token.isPunct '<' then 1 else if token.isPunct '>' then -1 else 0 := by
  simp only [angles, List.countP_singleton]
  split
  · rename_i opening
    rw [if_neg (by rw [isPunct_eq opening]; decide)]
    rfl
  · split <;> rfl

theorem angles_append (left right : List Token) :
    angles (left ++ right) = angles left + angles right := by
  simp only [angles, List.countP_append, Int.natCast_add]
  omega

theorem angles_cons (token : Token) (rest : List Token) :
    angles (token :: rest) = angles [token] + angles rest := angles_append [token] rest

theorem nestsAngles_nil (opened : Nat) : NestsAngles opened [] := by
  intro front inside
  rw [List.prefix_nil.mp inside, angles_nil, Int.add_zero]
  exact Int.natCast_nonneg opened

theorem NestsAngles.cons {opened : Nat} {token : Token} {rest : List Token}
    (nests : NestsAngles (opened + angles [token]) rest) : NestsAngles opened (token :: rest) := by
  intro front inside
  cases front with
  | nil => exact nestsAngles_nil opened [] List.nil_prefix
  | cons first front =>
      obtain ⟨rfl, inRest⟩ := List.cons_prefix_cons.mp inside
      rw [angles_cons, ← Int.add_assoc]
      exact nests front inRest

theorem NestsAngles.of_append {opened : Int} {left right : List Token}
    (nests : NestsAngles opened (left ++ right)) : NestsAngles (opened + angles left) right := by
  intro front inRight
  have whole := nests (left ++ front) ((List.prefix_append_right_inj left).mpr inRight)
  rwa [angles_append, ← Int.add_assoc] at whole

theorem nestsAngles_cons {opened : Int} {token : Token} {rest : List Token}
    (nests : NestsAngles opened (token :: rest)) :
    0 ≤ opened + angles [token] ∧ NestsAngles (opened + angles [token]) rest :=
  ⟨nests [token] (List.prefix_append [token] rest),
    NestsAngles.of_append (show NestsAngles opened ([token] ++ rest) from nests)⟩

theorem inAngles_nil (test : Token → Bool) (opened : Int) : InAngles test opened [] :=
  fun before _ _ split => absurd split.symm (List.append_ne_nil_of_right_ne_nil before
    (List.cons_ne_nil _ _))

theorem inAngles_cons {test : Token → Bool} {opened : Int} {token : Token} {rest : List Token} :
    InAngles test opened (token :: rest) ↔
      (test token = true → opened ≠ 0) ∧ InAngles test (opened + angles [token]) rest := by
  constructor
  · intro inside
    refine ⟨fun passes => ?_, fun before other after split passes => ?_⟩
    · have first := inside [] token rest rfl passes
      rwa [angles_nil, Int.add_zero] at first
    · have later := inside (token :: before) other after (by rw [split, List.cons_append]) passes
      rwa [angles_cons, ← Int.add_assoc] at later
  · rintro ⟨first, later⟩ before other after split passes
    cases before with
    | nil =>
        obtain ⟨rfl, -⟩ := List.cons.inj split
        rw [angles_nil, Int.add_zero]
        exact first passes
    | cons _ before =>
        obtain ⟨rfl, others⟩ := List.cons.inj split
        rw [angles_cons, ← Int.add_assoc]
        exact later before other after others passes

theorem angles_of_isWord {token : Token} {word : Text} (isWord : token.isWord word = true) :
    angles [token] = 0 := by
  have isIdent := eq_of_beq (Bool.and_eq_true_iff.mp isWord).1
  simp [angles, isPunct, isIdent]

/-- Tokens in angle brackets end with the bracket that closes the first. -/
theorem Angled.eq_nil {tokens more : List Token} (short : Angled tokens)
    (long : Angled (tokens ++ more)) : more = [] := by
  obtain ⟨opening, inside, closing, rfl, -, isClosing, -, balanced⟩ := short
  obtain ⟨other, insideOther, final, same, -, -, nests, -⟩ := long
  cases more using List.reverseRecOn with
  | nil => rfl
  | append_singleton more last =>
      rw [← List.append_assoc, List.cons_append] at same
      obtain ⟨-, same⟩ := List.cons.inj same
      obtain ⟨rfl, -⟩ := List.append_singleton_inj.mp same
      have below := nests (inside ++ [closing]) (List.prefix_append _ _)
      have closes : angles [closing] = -1 := by
        rw [angles_singleton, if_neg, if_pos isClosing]
        rw [isPunct_eq isClosing]
        decide
      rw [angles_append, balanced, closes] at below
      exact absurd below (by decide)

theorem Angled.unique {tokens others back more : List Token} (first : Angled tokens)
    (second : Angled others) (same : tokens ++ back = others ++ more) : tokens = others := by
  obtain ⟨between, rfl, -⟩ | ⟨between, rfl, -⟩ := List.append_eq_append_iff.mp same
  · rw [first.eq_nil second, List.append_nil]
  · rw [second.eq_nil first, List.append_nil]

end Token

namespace Code

def anglesAfter (angles : Nat) (code : CodeToken) : Nat :=
  if code.isPunct '<' then angles + 1 else if code.isPunct '>' then angles - 1 else angles

variable {keyword : String} {angles : Nat} {code : CodeToken} {rest others clause : List CodeToken}

theorem isPunct_of_isClauseKeyword (isKeyword : isClauseKeyword code = true) (c : Char) :
    code.isPunct c = false := by
  have isIdent : code.isIdent = true := by
    simp only [isClauseKeyword, CodeToken.isWord, Token.isWord, ← Bool.and_or_distrib_left]
      at isKeyword
    exact (Bool.and_eq_true_iff.mp isKeyword).1
  exact CodeToken.isPunct_of_isIdent isIdent c

theorem afterClauseKeyword?_cons : afterClauseKeyword? keyword angles (code :: rest) =
    if angles = 0 && isClauseKeyword code && code.isWord keyword then some rest
    else afterClauseKeyword? keyword (anglesAfter angles code) rest := by
  rw [afterClauseKeyword?, anglesAfter]
  cases isKeyword : isClauseKeyword code with
  | true => simp only [isPunct_of_isClauseKeyword isKeyword, Bool.false_eq_true, if_false]
  | false =>
      simp only [Bool.and_false, Bool.false_and, Bool.false_eq_true, if_false]
      split
      · rfl
      · split <;> rfl

theorem clauseTokens_cons : clauseTokens angles (code :: rest) =
    if angles = 0 && isClauseKeyword code then []
    else code :: clauseTokens (anglesAfter angles code) rest := by
  rw [clauseTokens, anglesAfter]
  cases isKeyword : isClauseKeyword code with
  | true => simp only [isPunct_of_isClauseKeyword isKeyword, Bool.false_eq_true, if_false]
  | false =>
      simp only [Bool.and_false, Bool.false_eq_true, if_false]
      split
      · rfl
      · split <;> rfl

theorem angles_token (code : CodeToken) : Token.angles [code.token] =
    if code.isPunct '<' then 1 else if code.isPunct '>' then -1 else 0 :=
  Token.angles_singleton code.token

/-- Where no bracket is closed that is not open, the scan counts the brackets that are open. -/
theorem anglesAfter_eq (nests : (0 : Int) ≤ angles + Token.angles [code.token]) :
    (anglesAfter angles code : Int) = angles + Token.angles [code.token] := by
  rw [angles_token] at nests ⊢
  unfold anglesAfter
  split
  · rfl
  · rename_i other
    split
    · rename_i closing
      rw [if_neg other, if_pos closing] at nests
      omega
    · exact (Int.add_zero _).symm

/-- The scan for a keyword finds its first occurrence outside of angle brackets. -/
theorem afterClauseKeyword?_eq_some_iff
    (isClause : ∀ code : CodeToken, code.isWord keyword = true → isClauseKeyword code = true)
    (nests : Token.NestsAngles angles (rest.map CodeToken.token)) :
    afterClauseKeyword? keyword angles rest = some others ↔
      ∃ before key, rest = before ++ key :: others ∧ key.isWord keyword = true ∧
        angles + Token.angles (before.map CodeToken.token) = 0 ∧
        Token.InAngles (·.isWord keyword.toList) angles (before.map CodeToken.token) := by
  induction rest generalizing angles with
  | nil =>
      refine ⟨nofun, ?_⟩
      rintro ⟨before, key, split, -⟩
      exact absurd split.symm (List.append_ne_nil_of_right_ne_nil before (List.cons_ne_nil _ _))
  | cons code rest ih =>
      obtain ⟨here, nestsRest⟩ := Token.nestsAngles_cons nests
      rw [← anglesAfter_eq here] at nestsRest
      rw [afterClauseKeyword?_cons]
      by_cases found : angles = 0 ∧ code.isWord keyword = true
      · obtain ⟨rfl, isWord⟩ := found
        rw [if_pos (by simp [isClause code isWord, isWord]), Option.some.injEq]
        constructor
        · rintro rfl
          exact ⟨[], code, rfl, isWord, rfl, Token.inAngles_nil _ _⟩
        · rintro ⟨before, key, split, -, -, inside⟩
          cases before with
          | nil => exact (List.cons.inj split).2
          | cons first before =>
              obtain ⟨rfl, -⟩ := List.cons.inj split
              exact absurd rfl ((Token.inAngles_cons.mp inside).1 isWord)
      · rw [if_neg, ih nestsRest, anglesAfter_eq here]
        · constructor
          · rintro ⟨before, key, rfl, isWord, outside, inside⟩
            refine ⟨code :: before, key, rfl, isWord, ?_, ?_⟩
            · rw [List.map_cons, Token.angles_cons, ← Int.add_assoc, outside]
            · refine Token.inAngles_cons.mpr ⟨fun passes zero => found ⟨?_, passes⟩, inside⟩
              exact Int.natCast_eq_zero.mp zero
          · rintro ⟨before, key, split, isWord, outside, inside⟩
            cases before with
            | nil =>
                obtain ⟨rfl, -⟩ := List.cons.inj split
                rw [List.map_nil, Token.angles_nil, Int.add_zero] at outside
                exact absurd ⟨Int.natCast_eq_zero.mp outside, isWord⟩ found
            | cons first before =>
                obtain ⟨rfl, later⟩ := List.cons.inj split
                rw [List.map_cons, Token.angles_cons, ← Int.add_assoc] at outside
                exact ⟨before, key, later, isWord, outside, (Token.inAngles_cons.mp inside).2⟩
        · simp only [Bool.and_eq_true, decide_eq_true_eq]
          exact fun both => found ⟨both.1.1, both.2⟩

/-- A clause goes up to the next keyword of a clause outside of angle brackets. -/
theorem clauseTokens_eq_iff (nests : Token.NestsAngles angles (rest.map CodeToken.token)) :
    clauseTokens angles rest = clause ↔
      ∃ behind, rest = clause ++ behind ∧
        Token.InAngles Token.isClauseKeyword angles (clause.map CodeToken.token) ∧
        (behind = [] ∨ angles + Token.angles (clause.map CodeToken.token) = 0 ∧
          ∃ next ∈ behind.head?, isClauseKeyword next = true) := by
  induction rest generalizing angles clause with
  | nil =>
      constructor
      · rintro rfl
        exact ⟨[], rfl, Token.inAngles_nil _ _, .inl rfl⟩
      · rintro ⟨behind, split, -⟩
        rw [clauseTokens, (List.append_eq_nil_iff.mp split.symm).1]
  | cons code rest ih =>
      obtain ⟨here, nestsRest⟩ := Token.nestsAngles_cons nests
      rw [← anglesAfter_eq here] at nestsRest
      rw [clauseTokens_cons]
      by_cases ends : angles = 0 ∧ isClauseKeyword code = true
      · obtain ⟨rfl, isKeyword⟩ := ends
        rw [if_pos (by simp [isKeyword])]
        constructor
        · rintro rfl
          exact ⟨code :: rest, rfl, Token.inAngles_nil _ _, .inr ⟨rfl, code, rfl, isKeyword⟩⟩
        · rintro ⟨behind, split, inside, -⟩
          cases clause with
          | nil => rfl
          | cons first clause =>
              obtain ⟨rfl, -⟩ := List.cons.inj split
              exact absurd rfl ((Token.inAngles_cons.mp inside).1 isKeyword)
      · rw [if_neg (by simpa only [Bool.and_eq_true, decide_eq_true_eq] using ends)]
        constructor
        · rintro rfl
          obtain ⟨behind, split, inside, stops⟩ := (ih nestsRest).mp rfl
          refine ⟨behind, by rw [List.cons_append, ← split], ?_, ?_⟩
          · refine Token.inAngles_cons.mpr ⟨fun passes zero => ends ⟨?_, passes⟩, ?_⟩
            · exact Int.natCast_eq_zero.mp zero
            · rwa [← anglesAfter_eq here]
          · rwa [List.map_cons, Token.angles_cons, ← Int.add_assoc, ← anglesAfter_eq here]
        · rintro ⟨behind, split, inside, stops⟩
          cases clause with
          | nil =>
              -- the first token would end the clause
              obtain rfl : behind = code :: rest := split.symm
              obtain ⟨zero, next, isNext, isKeyword⟩ := stops.resolve_left (List.cons_ne_nil _ _)
              cases isNext
              exact absurd ⟨Int.natCast_eq_zero.mp zero, isKeyword⟩ ends
          | cons first clause =>
              obtain ⟨rfl, later⟩ := List.cons.inj split
              rw [List.map_cons, Token.angles_cons, ← Int.add_assoc, ← anglesAfter_eq here] at stops
              rw [(ih nestsRest).mpr ⟨behind, later, ?_, stops⟩]
              rw [anglesAfter_eq here]
              exact (Token.inAngles_cons.mp inside).2

/-- The angle bracket that is found closes the one before the run. -/
theorem nestsAngles_of_close? {enclosed : Enclosed}
    (closed : close? '<' '>' angles rest = some enclosed) :
    enclosed.closing.isPunct '>' = true ∧
      Token.NestsAngles angles (enclosed.inside.map CodeToken.token) ∧
      angles + Token.angles (enclosed.inside.map CodeToken.token) = 0 := by
  have push {code : CodeToken} {angles next : Nat} {enclosed : Enclosed}
      (after : (next : Int) = angles + Token.angles [code.token])
      (inner : enclosed.closing.isPunct '>' = true ∧
        Token.NestsAngles next (enclosed.inside.map CodeToken.token) ∧
        next + Token.angles (enclosed.inside.map CodeToken.token) = 0) :
      (enclosed.push code).closing.isPunct '>' = true ∧
        Token.NestsAngles angles ((enclosed.push code).inside.map CodeToken.token) ∧
        angles + Token.angles ((enclosed.push code).inside.map CodeToken.token) = 0 := by
    obtain ⟨isClosing, nests, balanced⟩ := inner
    rw [after] at nests balanced
    refine ⟨isClosing, ?_, ?_⟩
    · exact nests.cons
    · rw [Enclosed.push, List.map_cons, Token.angles_cons, ← Int.add_assoc, balanced]
  fun_induction close? '<' '>' angles rest generalizing enclosed with
  | case1 => cases closed
  | case2 angles code rest isOpening ih =>
      obtain ⟨inner, found, rfl⟩ := Option.map_eq_some_iff.mp closed
      refine push ?_ (ih found)
      rw [angles_token, if_pos isOpening, Int.natCast_succ]
  | case3 code rest notOpening isClosing =>
      cases closed
      exact ⟨isClosing, Token.nestsAngles_nil 0, rfl⟩
  | case4 code rest notOpening isClosing angles ih =>
      obtain ⟨inner, found, rfl⟩ := Option.map_eq_some_iff.mp closed
      refine push ?_ (ih found)
      rw [angles_token, if_neg notOpening, if_pos isClosing, Int.natCast_succ]
      omega
  | case5 angles code rest notOpening notClosing ih =>
      obtain ⟨inner, found, rfl⟩ := Option.map_eq_some_iff.mp closed
      refine push ?_ (ih found)
      rw [angles_token, if_neg notOpening, if_neg notClosing, Int.add_zero]

/-- The clause of a keyword is what the scan finds after it. -/
theorem isClause_map_iff
    (isClause : ∀ code : CodeToken, code.isWord keyword = true → isClauseKeyword code = true)
    {header : List CodeToken} (nests : Token.NestsAngles 0 (header.map CodeToken.token))
    {tokens : List Token} :
    Token.IsClause keyword.toList (header.map CodeToken.token) tokens ↔
      ∃ rest, afterClauseKeyword? keyword 0 header = some rest ∧
        tokens = (clauseTokens 0 rest).map CodeToken.token := by
  have nestsRest {before rest : List CodeToken} {key : CodeToken}
      (split : header = before ++ key :: rest) (isWord : key.isWord keyword = true)
      (outside : Token.angles (before.map CodeToken.token) = 0) :
      Token.NestsAngles (0 : Nat) (rest.map CodeToken.token) := by
    rw [split, List.append_cons, List.map_append, List.map_append] at nests
    have later := nests.of_append
    rwa [Token.angles_append, outside, List.map_singleton, Token.angles_of_isWord isWord] at later
  constructor
  · rintro ⟨before, key, behind, split, ⟨isWord, outside, first⟩, inside, stops⟩
    obtain ⟨before, after, rfl, rfl, keyed⟩ := List.map_eq_append_iff.mp split
    obtain ⟨key, rest, rfl, rfl, followed⟩ := List.map_eq_cons_iff.mp keyed
    obtain ⟨clause, behind, rfl, rfl, rfl⟩ := List.map_eq_append_iff.mp followed
    refine ⟨clause ++ behind, ?_, congrArg _ (Eq.symm ?_)⟩
    · exact (afterClauseKeyword?_eq_some_iff isClause nests).mpr
        ⟨before, key, rfl, isWord, (Int.zero_add _).trans outside, first⟩
    · refine (clauseTokens_eq_iff (nestsRest rfl isWord outside)).mpr
        ⟨behind, rfl, inside, ?_⟩
      refine stops.imp List.map_eq_nil_iff.mp fun ⟨zero, next, isNext, isKeyword⟩ => ?_
      rw [List.head?_map] at isNext
      obtain ⟨code, isCode, rfl⟩ := Option.map_eq_some_iff.mp isNext
      exact ⟨(Int.zero_add _).trans zero, code, isCode, isKeyword⟩
  · rintro ⟨rest, found, rfl⟩
    obtain ⟨before, key, split, isWord, outside, first⟩ :=
      (afterClauseKeyword?_eq_some_iff isClause nests).mp found
    rw [Int.natCast_zero, Int.zero_add] at outside
    obtain ⟨behind, whole, inside, stops⟩ :=
      (clauseTokens_eq_iff (nestsRest split isWord outside)).mp rfl
    refine ⟨before.map CodeToken.token, key.token, behind.map CodeToken.token, ?_,
      ⟨isWord, outside, first⟩, inside, ?_⟩
    · rw [split]
      nth_rewrite 1 [whole]
      simp only [List.map_append, List.map_cons]
    · refine stops.imp (fun none => by rw [none, List.map_nil]) ?_
      rintro ⟨zero, next, isNext, isKeyword⟩
      rw [Int.natCast_zero, Int.zero_add] at zero
      exact ⟨zero, next.token, by rw [List.head?_map, isNext]; rfl, isKeyword⟩

end Code

end JavaRecords
