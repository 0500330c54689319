import JavaRecords.Proofs.Code.Relexed

set_option autoImplicit false

namespace JavaRecords

namespace Token

/-- Tokens begin with an increment or a decrement, whichever the operator is. -/
def StepsBy (op : AssignOp) (tokens : List Token) : Prop :=
  (op = .increment ∧ spells "++".toList tokens = true) ∨
    (op = .decrement ∧ spells "--".toList tokens = true)

/-- Tokens begin with a target, which is a field of `this` or a name that is no keyword and has no
dot in front of it. `before` are the tokens in front of the target and `after` those behind it. -/
inductive Targets (before : List Token) : List Token → Text → Bool → List Token → Prop
  | field {this dot field : Token} {after : List Token} (isThis : this.isWord "this".toList = true)
      (isDot : dot.isPunct '.' = true) (isIdent : field.isIdent = true) :
      Targets before (this :: dot :: field :: after) field.text true after
  | name {target : Token} {after : List Token} (isIdent : target.isIdent = true)
      (free : isKeyword target.text = false)
      (undotted : ∀ last ∈ before.getLast?, last.isPunct '.' = false) :
      Targets before (target :: after) target.text false after

/-- What stands between two runs of tokens is written by an operator: the one that assigns behind
it, or else the increment or decrement behind it, or else the one in front of it. -/
inductive WritesBy (before after : List Token) (op : AssignOp) : Prop
  | assigns (begins : Begins op after)
  | steps (plain : ∀ other, ¬ Begins other after) (steps : StepsBy op after)
  | stepsAhead {earlier : List Token} {first second : Token} (plain : ∀ other, ¬ Begins other after)
      (still : ∀ other, ¬ StepsBy other after) (split : before = earlier ++ [first, second])
      (steps : StepsBy op [first, second])

/-- Tokens write a target that stands at a place among them. -/
def WritesAt (tokens : List Token) (place : Nat) (name : Text) (qualified : Bool) (op : AssignOp) :
    Prop :=
  ∃ after, Targets (tokens.take place) (tokens.drop place) name qualified after ∧
    WritesBy (tokens.take place) after op

/-- A write is the one that tokens make at a place among them. -/
structure WriteAt (tokens : List Token) (place : Nat) (write : VariableWrite) : Prop where
  writes : WritesAt tokens place write.name write.qualified write.op
  offset : tokens[place]?.map start = some write.offset

theorem steps_iff {tokens : List Token} : Steps tokens ↔ ∃ op, StepsBy op tokens := by
  constructor
  · rintro (plus | minus)
    · exact ⟨.increment, Or.inl ⟨rfl, plus⟩⟩
    · exact ⟨.decrement, Or.inr ⟨rfl, minus⟩⟩
  · rintro ⟨_, ⟨_, plus⟩ | ⟨_, minus⟩⟩
    · exact Or.inl plus
    · exact Or.inr minus

/-- What is written is written by an operator. -/
theorem writes_iff {before after : List Token} :
    Writes before after ↔ ∃ op, WritesBy before after op := by
  constructor
  · intro writes
    by_cases begins : ∃ op, Begins op after
    · obtain ⟨op, begins⟩ := begins
      exact ⟨op, .assigns begins⟩
    by_cases stepped : ∃ op, StepsBy op after
    · obtain ⟨op, steps⟩ := stepped
      exact ⟨op, .steps (not_exists.mp begins) steps⟩
    rcases writes with (assigns | steps) | ⟨earlier, first, second, split, steps⟩
    · exact absurd assigns begins
    · exact absurd (steps_iff.mp steps) stepped
    · obtain ⟨op, steps⟩ := steps_iff.mp steps
      exact ⟨op, .stepsAhead (not_exists.mp begins) (not_exists.mp stepped) split steps⟩
  · rintro ⟨op, begins | ⟨_, steps⟩ | ⟨_, _, split, steps⟩⟩
    · exact Or.inl (Or.inl ⟨op, begins⟩)
    · exact Or.inl (Or.inr (steps_iff.mpr ⟨op, steps⟩))
    · exact Or.inr ⟨_, _, _, split, steps_iff.mpr ⟨op, steps⟩⟩

theorem writesAt_append {before rest after : List Token} {name : Text} {qualified : Bool}
    {op : AssignOp} (targets : Targets before rest name qualified after)
    (writes : WritesBy before after op) :
    WritesAt (before ++ rest) before.length name qualified op :=
  ⟨after, by rwa [List.take_left, List.drop_left], by rwa [List.take_left]⟩

theorem writesField_iff {tokens : List Token} {name : Text} :
    WritesField tokens name ↔ ∃ place op, WritesAt tokens place name true op := by
  constructor
  · rintro ⟨before, this, dot, field, after, rfl, isThis, isDot, isField, writes⟩
    obtain ⟨op, writes⟩ := writes_iff.mp writes
    obtain ⟨isIdent, isText⟩ := Bool.and_eq_true_iff.mp isField
    obtain rfl := eq_of_beq isText
    exact ⟨_, op, writesAt_append (.field isThis isDot isIdent) writes⟩
  · rintro ⟨place, op, after, targets, writes⟩
    generalize isRest : tokens.drop place = rest at targets
    cases targets with
    | @field this dot field after isThis isDot isIdent =>
        refine ⟨tokens.take place, this, dot, field, after, ?_, isThis, isDot, ?_,
          writes_iff.mpr ⟨op, writes⟩⟩
        · rw [← isRest, List.take_append_drop]
        · exact Bool.and_eq_true_iff.mpr ⟨isIdent, beq_self_eq_true field.text⟩

theorem WritesName.exists_writesAt {tokens : List Token} {name : Text}
    (writes : WritesName tokens name) (free : isKeyword name = false) :
    ∃ place op, WritesAt tokens place name false op := by
  obtain ⟨before, target, after, rfl, isName, undotted, assigns⟩ := writes
  obtain ⟨op, writes⟩ := writes_iff.mp (show Writes before after from Or.inl assigns)
  obtain ⟨isIdent, isText⟩ := Bool.and_eq_true_iff.mp isName
  obtain rfl := eq_of_beq isText
  exact ⟨_, op, writesAt_append (.name isIdent free undotted) writes⟩

variable (distance : Nat)

theorem begins_slide (op : AssignOp) (tokens : List Token) :
    Begins op (tokens.map (slide distance)) ↔ Begins op tokens := by
  simp only [Begins, spells_slide]

theorem stepsBy_slide (op : AssignOp) (tokens : List Token) :
    StepsBy op (tokens.map (slide distance)) ↔ StepsBy op tokens := by
  simp only [StepsBy, spells_slide]

theorem targets_slide {before tokens after : List Token} {name : Text} {qualified : Bool} :
    Targets (before.map (slide distance)) (tokens.map (slide distance)) name qualified after ↔
      ∃ rest, after = rest.map (slide distance) ∧ Targets before tokens name qualified rest := by
  constructor
  · intro targets
    generalize isAll : tokens.map (slide distance) = all at targets
    cases targets with
    | field isThis isDot isIdent =>
        obtain ⟨this, others, rfl, rfl, isOthers⟩ := List.map_eq_cons_iff.mp isAll
        obtain ⟨dot, more, rfl, rfl, isMore⟩ := List.map_eq_cons_iff.mp isOthers
        obtain ⟨field, rest, rfl, rfl, rfl⟩ := List.map_eq_cons_iff.mp isMore
        exact ⟨rest, rfl, .field isThis isDot isIdent⟩
    | name isIdent free undotted =>
        obtain ⟨target, rest, rfl, rfl, rfl⟩ := List.map_eq_cons_iff.mp isAll
        refine ⟨rest, rfl, .name isIdent free fun last isLast => ?_⟩
        exact undotted (last.slide distance)
          (by rw [List.getLast?_map, Option.mem_def.mp isLast]; rfl)
  · rintro ⟨rest, rfl, targets⟩
    cases targets with
    | field isThis isDot isIdent => exact .field isThis isDot isIdent
    | name isIdent free undotted =>
        refine .name isIdent free fun last isLast => ?_
        rw [List.getLast?_map] at isLast
        obtain ⟨previous, isPrevious, rfl⟩ := Option.map_eq_some_iff.mp isLast
        exact undotted previous isPrevious

theorem writesBy_slide {before after : List Token} {op : AssignOp} :
    WritesBy (before.map (slide distance)) (after.map (slide distance)) op ↔
      WritesBy before after op := by
  constructor
  · rintro (begins | ⟨plain, steps⟩ | ⟨plain, still, split, steps⟩)
    · exact .assigns ((begins_slide distance op after).mp begins)
    · simp only [begins_slide] at plain
      exact .steps plain ((stepsBy_slide distance op after).mp steps)
    · simp only [begins_slide] at plain
      simp only [stepsBy_slide] at still
      obtain ⟨earlier, pair, rfl, rfl, isPair⟩ := List.map_eq_append_iff.mp split
      obtain ⟨first, others, rfl, rfl, isOthers⟩ := List.map_eq_cons_iff.mp isPair
      obtain ⟨second, none, rfl, rfl, isNone⟩ := List.map_eq_cons_iff.mp isOthers
      obtain rfl := List.map_eq_nil_iff.mp isNone
      exact .stepsAhead plain still rfl ((stepsBy_slide distance op [first, second]).mp steps)
  · rintro (begins | ⟨plain, steps⟩ | ⟨plain, still, rfl, steps⟩)
    · exact .assigns ((begins_slide distance op after).mpr begins)
    · exact .steps (by simpa only [begins_slide] using plain)
        ((stepsBy_slide distance op after).mpr steps)
    · exact .stepsAhead (by simpa only [begins_slide] using plain)
        (by simpa only [stepsBy_slide] using still) List.map_append
        ((stepsBy_slide distance op [_, _]).mpr steps)

/-- What tokens write does not change when they are moved. -/
theorem writesAt_slide {tokens : List Token} {place : Nat} {name : Text} {qualified : Bool}
    {op : AssignOp} : WritesAt (tokens.map (slide distance)) place name qualified op ↔
      WritesAt tokens place name qualified op := by
  simp only [WritesAt, ← List.map_take, ← List.map_drop, targets_slide]
  constructor
  · rintro ⟨_, ⟨rest, rfl, targets⟩, writes⟩
    exact ⟨rest, targets, (writesBy_slide distance).mp writes⟩
  · rintro ⟨rest, targets, writes⟩
    exact ⟨_, ⟨rest, rfl, targets⟩, (writesBy_slide distance).mpr writes⟩

theorem writesField_slide (tokens : List Token) (name : Text) :
    WritesField (tokens.map (slide distance)) name ↔ WritesField tokens name := by
  simp only [writesField_iff, writesAt_slide]

theorem assigns_slide (tokens : List Token) :
    Assigns (tokens.map (slide distance)) ↔ Assigns tokens := by
  simp only [Assigns, begins_slide, Steps, spells_slide]

theorem writesName_slide (tokens : List Token) (name : Text) :
    WritesName (tokens.map (slide distance)) name ↔ WritesName tokens name := by
  constructor
  · rintro ⟨_, _, _, split, isName, undotted, assigns⟩
    obtain ⟨before, behind, rfl, rfl, isBehind⟩ := List.map_eq_append_iff.mp split
    obtain ⟨target, after, rfl, rfl, rfl⟩ := List.map_eq_cons_iff.mp isBehind
    refine ⟨before, target, after, rfl, isName, fun last isLast => ?_,
      (assigns_slide distance after).mp assigns⟩
    exact undotted (last.slide distance) (by rw [List.getLast?_map, Option.mem_def.mp isLast]; rfl)
  · rintro ⟨before, target, after, rfl, isName, undotted, assigns⟩
    refine ⟨_, _, _, List.map_append, isName, fun last isLast => ?_,
      (assigns_slide distance after).mpr assigns⟩
    rw [List.getLast?_map] at isLast
    obtain ⟨previous, isPrevious, rfl⟩ := Option.map_eq_some_iff.mp isLast
    exact undotted previous isPrevious

theorem place_lt {tokens : List Token} {place : Nat} {write : VariableWrite}
    (writes : WriteAt tokens place write) : place < tokens.length := by
  obtain ⟨token, found, _⟩ := Option.map_eq_some_iff.mp writes.offset
  exact (List.getElem?_eq_some_iff.mp found).1

end Token

namespace Code

variable {before after : List CodeToken} {code : CodeToken} {op : AssignOp}

/-- A target stands where one is found, and ends with a name. -/
theorem targets_of_target? {target : Target} (found : target? before code after = some target) :
    Token.Targets (before.map CodeToken.token).reverse (code.token :: after.map CodeToken.token)
        target.name target.qualified (target.after.map CodeToken.token) ∧
      ∃ front last, code :: after = front ++ last :: target.after ∧ last.isIdent = true := by
  have bare : ∀ found : (if code.isIdent && !isKeyword code.text &&
        !(before.head?.any (·.isPunct '.')) then some (⟨code.text, false, after⟩ : Target)
      else none) = some target,
      Token.Targets (before.map CodeToken.token).reverse (code.token :: after.map CodeToken.token)
          target.name target.qualified (target.after.map CodeToken.token) ∧
        ∃ front last, code :: after = front ++ last :: target.after ∧ last.isIdent = true := by
    intro found
    split at found
    · rename_i stands
      cases found
      simp only [Bool.and_eq_true, Bool.not_eq_true'] at stands
      obtain ⟨⟨isIdent, free⟩, undotted⟩ := stands
      refine ⟨.name isIdent free fun last isLast => ?_, [], code, rfl, isIdent⟩
      rw [List.getLast?_reverse, List.head?_map] at isLast
      obtain ⟨previous, isPrevious, rfl⟩ := Option.map_eq_some_iff.mp isLast
      rw [isPrevious] at undotted
      exact undotted
    · cases found
  unfold target? at found
  dsimp only at found
  split at found
  · rename_i dot field rest
    split at found
    · rename_i stands
      cases found
      simp only [Bool.and_eq_true] at stands
      obtain ⟨⟨isThis, isDot⟩, isIdent⟩ := stands
      exact ⟨.field isThis isDot isIdent, [code, dot], field, rfl, isIdent⟩
    · exact bare found
  · exact bare found

/-- A target that stands somewhere is found there. -/
theorem exists_target? {name : Text} {qualified : Bool} {rest : List Token}
    (targets : Token.Targets (before.map CodeToken.token).reverse
      (code.token :: after.map CodeToken.token) name qualified rest) :
    ∃ target, target? before code after = some target ∧ target.name = name ∧
      target.qualified = qualified ∧ target.after.map CodeToken.token = rest := by
  generalize isAll : code.token :: after.map CodeToken.token = all at targets
  cases targets with
  | field isThis isDot isIdent =>
      obtain ⟨rfl, others⟩ := List.cons.inj isAll
      obtain ⟨dot, more, rfl, rfl, isMore⟩ := List.map_eq_cons_iff.mp others
      obtain ⟨field, rest, rfl, rfl, rfl⟩ := List.map_eq_cons_iff.mp isMore
      have stands : (code.isWord "this" && dot.isPunct '.' && field.isIdent) = true := by
        rw [Bool.and_eq_true, Bool.and_eq_true]
        exact ⟨⟨isThis, isDot⟩, isIdent⟩
      exact ⟨⟨field.text, true, rest⟩, by rw [target?, if_pos stands], rfl, rfl, rfl⟩
  | name isIdent free undotted =>
      obtain ⟨rfl, rfl⟩ := List.cons.inj isAll
      have notThis : code.isWord "this" = false := by
        cases isThis : code.isWord "this" with
        | false => rfl
        | true =>
            have isText : code.token.text = "this".toList :=
              eq_of_beq (Bool.and_eq_true_iff.mp isThis).2
            rw [isText] at free
            exact absurd free (by decide)
      have noDot : before.head?.any (CodeToken.isPunct · '.') = false := by
        cases isLast : before.head? with
        | none => rfl
        | some last =>
            refine undotted last.token ?_
            rw [List.getLast?_reverse, List.head?_map, isLast]
            rfl
      have stands : (code.isIdent && !isKeyword code.text &&
          !(before.head?.any (CodeToken.isPunct · '.'))) = true := by
        rw [noDot, show isKeyword code.text = false from free,
          show code.isIdent = true from isIdent]
        rfl
      refine ⟨⟨code.text, false, after⟩, ?_, rfl, rfl, rfl⟩
      unfold target?
      dsimp only
      rw [if_pos stands, notThis]
      split <;> rfl

theorem increment?_eq_some_iff {first second : CodeToken} (rest : List Token) :
    CodeToken.increment? first second = some op ↔
      Token.StepsBy op (first.token :: second.token :: rest) := by
  have pair : ∀ c, Token.spells [c, c] (first.token :: second.token :: rest) =
      (first.isPunct c && first.token.touches second.token && second.isPunct c) := by
    intro c
    simp [Token.spells, CodeToken.isPunct]
  -- a token is one of `+` and `-` at most
  have apart : first.isPunct '+' = true → first.isPunct '-' = false := fun isPlus => by
    rw [CodeToken.isPunct_of_isPunct isPlus]
    rfl
  change _ ↔ (_ ∧ Token.spells ['+', '+'] _ = true) ∨ (_ ∧ Token.spells ['-', '-'] _ = true)
  rw [pair, pair, CodeToken.increment?, eq_comm (a := op), eq_comm (a := op)]
  cases first.token.touches second.token with
  | false => simp
  | true =>
      cases plus : first.isPunct '+' with
      | false => cases first.isPunct '-' <;> cases second.isPunct '-' <;> simp
      | true =>
          rw [apart plus]
          cases second.isPunct '+' <;> simp

theorem leadingIncrement?_eq_some_iff : leadingIncrement? after = some op ↔
    Token.StepsBy op (after.map CodeToken.token) := by
  rcases after with _ | ⟨first, _ | ⟨second, rest⟩⟩
  · simp [leadingIncrement?, Token.StepsBy, Token.spells]
  · simp [leadingIncrement?, Token.StepsBy, Token.spells]
  · exact increment?_eq_some_iff (rest.map CodeToken.token)

theorem trailingIncrement?_eq_some_iff : trailingIncrement? before = some op ↔
    ∃ earlier first second, (before.map CodeToken.token).reverse = earlier ++ [first, second] ∧
      Token.StepsBy op [first, second] := by
  rcases before with _ | ⟨last, _ | ⟨previous, earlier⟩⟩
  · simp [trailingIncrement?]
  · refine ⟨fun some => absurd some (by simp [trailingIncrement?]), ?_⟩
    rintro ⟨earlier, first, second, split, _⟩
    have size := congrArg List.length split
    simp at size
  · have split : ((last :: previous :: earlier).map CodeToken.token).reverse =
        (earlier.map CodeToken.token).reverse ++ [previous.token, last.token] := by
      simp
    rw [split]
    refine (increment?_eq_some_iff []).trans ⟨fun steps => ⟨_, _, _, rfl, steps⟩, ?_⟩
    rintro ⟨front, first, second, same, steps⟩
    obtain ⟨_, pair⟩ := List.append_inj' same rfl
    cases pair
    exact steps

/-- The operator that is found is the one that writes the target. -/
theorem writeOp?_eq_some_iff {last : Token} {earlier : List Token}
    (marks : Marks (last :: earlier) [] after) (isIdent : last.isIdent = true) :
    writeOp? before after = some op ↔
      Token.WritesBy (before.map CodeToken.token).reverse (after.map CodeToken.token) op := by
  have apart : ∀ previous ∈ (last :: earlier).head?, previous.kind ≠ .punct := by
    rintro previous ⟨⟩
    exact Token.kind_ne_punct isIdent
  have assigns : ∀ other, leadingAssign? after = some other ↔
      Token.Begins other (after.map CodeToken.token) :=
    fun other => leadingAssign?_eq_some_iff marks apart
  have steps : ∀ other, leadingIncrement? after = some other ↔
      Token.StepsBy other (after.map CodeToken.token) := fun other => leadingIncrement?_eq_some_iff
  have none_iff : ∀ found : Option AssignOp, found = none ↔
    ∀ other, ¬ found = some other := fun found =>
    Option.eq_none_iff_forall_not_mem
  have plain := none_iff (leadingAssign? after)
  have still := none_iff (leadingIncrement? after)
  simp only [assigns] at plain
  simp only [steps] at still
  have found : writeOp? before after = some op ↔ leadingAssign? after = some op ∨
      leadingAssign? after = none ∧ (leadingIncrement? after = some op ∨
        leadingIncrement? after = none ∧ trailingIncrement? before = some op) := by
    unfold writeOp?
    cases leadingAssign? after <;> cases leadingIncrement? after <;> simp
  rw [found, assigns, steps, plain, still, trailingIncrement?_eq_some_iff]
  constructor
  · rintro (begins | ⟨plain, step | ⟨still, earlier, first, second, split, step⟩⟩)
    · exact .assigns begins
    · exact .steps plain step
    · exact .stepsAhead plain still split step
  · rintro (begins | ⟨plain, step⟩ | ⟨plain, still, split, step⟩)
    · exact Or.inl begins
    · exact Or.inr ⟨plain, Or.inl step⟩
    · exact Or.inr ⟨plain, Or.inr ⟨still, _, _, _, split, step⟩⟩

def writeAt? (before : List CodeToken) (code : CodeToken) (rest : List CodeToken) :
    Option VariableWrite := do
  let target ← target? before code rest
  let op ← writeOp? before target.after
  some ⟨target.name, target.qualified, op, code.start⟩

theorem writesFrom_cons (before : List CodeToken) (code : CodeToken) (rest : List CodeToken) :
    writesFrom before (code :: rest) =
      (writeAt? before code rest).toList ++ writesFrom (code :: before) rest := rfl

theorem writeAt?_eq_some_iff {rest : List CodeToken} {write : VariableWrite}
    (marks : Marks (before.map CodeToken.token) [] (code :: rest)) :
    writeAt? before code rest = some write ↔
      Token.WriteAt ((before.map CodeToken.token).reverse ++ code.token :: rest.map CodeToken.token)
        before.length write := by
  have taken : ((before.map CodeToken.token).reverse ++ code.token :: rest.map CodeToken.token).take
      before.length = (before.map CodeToken.token).reverse := List.take_left' (by simp)
  have dropped :
      ((before.map CodeToken.token).reverse ++ code.token :: rest.map CodeToken.token).drop
        before.length = code.token :: rest.map CodeToken.token := List.drop_left' (by simp)
  have here : ((before.map CodeToken.token).reverse ++ code.token :: rest.map CodeToken.token)[
      before.length]? = some code.token := by
    rw [List.getElem?_append_right (by simp)]
    simp
  -- the operators behind a target are those of its own tokens, since it ends with a name
  have written : ∀ {target : Target} {op : AssignOp}, target? before code rest = some target →
      (writeOp? before target.after = some op ↔ Token.WritesBy (before.map CodeToken.token).reverse
        (target.after.map CodeToken.token) op) := by
    intro target op found
    obtain ⟨_, front, last, split, isIdent⟩ := targets_of_target? found
    rw [split] at marks
    exact writeOp?_eq_some_iff (marks_append.mp marks).2.2.2 isIdent
  constructor
  · intro found
    obtain ⟨target, isTarget, found⟩ := Option.bind_eq_some_iff.mp found
    obtain ⟨op, isOp, same⟩ := Option.bind_eq_some_iff.mp found
    cases same
    refine ⟨⟨target.after.map CodeToken.token, ?_, ?_⟩, by rw [here]; rfl⟩
    · rw [taken, dropped]
      exact (targets_of_target? isTarget).1
    · rw [taken]
      exact (written isTarget).mp isOp
  · rintro ⟨⟨after, targets, writes⟩, offset⟩
    rw [taken] at targets writes
    rw [dropped] at targets
    rw [here] at offset
    obtain ⟨target, isTarget, name, qualified, rfl⟩ := exists_target? targets
    refine Option.bind_eq_some_iff.mpr ⟨target, isTarget, Option.bind_eq_some_iff.mpr
      ⟨write.op, (written isTarget).mpr writes, ?_⟩⟩
    rw [name, qualified, show code.start = write.offset from Option.some.inj offset]

/-- A scan finds the writes that the tokens make, from left to right and each once. -/
theorem writesFrom_eq {rest : List CodeToken}
    (marks : Marks (before.map CodeToken.token) [] rest) :
    ∃ found : List (Nat × VariableWrite), writesFrom before rest = found.map Prod.snd ∧
      (found.map Prod.fst).Pairwise (· < ·) ∧ ∀ place write, (place, write) ∈ found ↔
        before.length ≤ place ∧ Token.WriteAt
          ((before.map CodeToken.token).reverse ++ rest.map CodeToken.token) place write := by
  induction rest generalizing before with
  | nil =>
      refine ⟨[], rfl, .nil, fun place write => ⟨nofun, ?_⟩⟩
      rintro ⟨behind, writes⟩
      have inside := Token.place_lt writes
      simp only [List.map_nil, List.append_nil, List.length_reverse, List.length_map] at inside
      omega
  | cons code rest ih =>
      obtain ⟨later, found, ordered, exact⟩ :=
        ih (show Marks ((code :: before).map CodeToken.token) [] rest from marks.2.2)
      have same : ((code :: before).map CodeToken.token).reverse ++ rest.map CodeToken.token =
          (before.map CodeToken.token).reverse ++ (code :: rest).map CodeToken.token := by
        simp
      rw [same, List.length_cons] at exact
      refine ⟨(writeAt? before code rest).toList.map (before.length, ·) ++ later, ?_, ?_, ?_⟩
      · rw [writesFrom_cons, found, List.map_append, List.map_map]
        congr 1
        exact (List.map_id _).symm
      · have behind : ∀ place ∈ later.map Prod.fst, before.length < place := by
          intro place listed
          obtain ⟨entry, among, rfl⟩ := List.mem_map.mp listed
          exact ((exact entry.1 entry.2).mp among).1
        cases writeAt? before code rest with
        | none => exact ordered
        | some write => exact .cons behind ordered
      · intro place write
        have here : writeAt? before code rest = some write ↔ _ := writeAt?_eq_some_iff marks
        rw [List.mem_append, exact, ← List.map_cons] at *
        rw [List.mem_map]
        constructor
        · rintro (⟨other, isWrite, same⟩ | ⟨behind, writes⟩)
          · cases same
            exact ⟨Nat.le_refl _, here.mp (Option.mem_toList.mp isWrite)⟩
          · exact ⟨Nat.le_of_succ_le behind, writes⟩
        · rintro ⟨behind, writes⟩
          rcases Nat.eq_or_lt_of_le behind with rfl | later
          · exact Or.inl ⟨write, Option.mem_toList.mpr (here.mpr writes), rfl⟩
          · exact Or.inr ⟨later, writes⟩

theorem exists_write_of_writesAt {code : List CodeToken} (marks : Marks [] [] code) {place : Nat}
    {name : Text} {qualified : Bool} {op : AssignOp}
    (writes : Token.WritesAt (code.map CodeToken.token) place name qualified op) :
    ∃ write ∈ writesFrom [] code, write.name = name ∧ write.qualified = qualified ∧
      write.op = op := by
  obtain ⟨token, isToken⟩ : ∃ token, (code.map CodeToken.token)[place]? = some token := by
    obtain ⟨after, targets, _⟩ := writes
    refine ⟨_, List.getElem?_eq_getElem (Nat.lt_of_not_le fun beyond => ?_)⟩
    rw [List.drop_of_length_le beyond] at targets
    cases targets
  obtain ⟨found, listed, _, exact⟩ :=
    writesFrom_eq (show Marks (([] : List CodeToken).map CodeToken.token) [] code from marks)
  have among := (exact place ⟨name, qualified, op, token.start⟩).mpr
    ⟨Nat.zero_le _, writes, by simp [isToken]⟩
  exact ⟨_, by rw [listed]; exact List.mem_map_of_mem among, rfl, rfl, rfl⟩

/-- A written field of `this` is found. -/
theorem exists_write_of_writesField {code : List CodeToken} {name : Text} (marks : Marks [] [] code)
    (writes : Token.WritesField (code.map CodeToken.token) name) :
    ∃ write ∈ writesFrom [] code, write.name = name ∧ write.qualified = true := by
  obtain ⟨place, op, writes⟩ := Token.writesField_iff.mp writes
  obtain ⟨write, found, isName, isQualified, _⟩ := exists_write_of_writesAt marks writes
  exact ⟨write, found, isName, isQualified⟩

/-- A written name that is no keyword is found. -/
theorem exists_write_of_writesName {code : List CodeToken} {name : Text} (marks : Marks [] [] code)
    (writes : Token.WritesName (code.map CodeToken.token) name) (free : isKeyword name = false) :
    ∃ write ∈ writesFrom [] code, write.name = name ∧ write.qualified = false := by
  obtain ⟨place, op, writes⟩ := writes.exists_writesAt free
  obtain ⟨write, found, isName, isQualified, _⟩ := exists_write_of_writesAt marks writes
  exact ⟨write, found, isName, isQualified⟩

end Code

/-- A scan of a text lists exactly the writes that its code tokens make, from left to right and each
once. -/
theorem exists_scanWrites {fragment : Text} {tokens : List Token}
    (lexed : lex fragment = .ok tokens) :
    ∃ found : List (Nat × VariableWrite), scanWrites fragment = .ok (found.map Prod.snd) ∧
      (found.map Prod.fst).Pairwise (· < ·) ∧ ∀ place write, (place, write) ∈ found ↔
        Token.WriteAt (tokens.filter fun token => !token.isComment) place write := by
  have marks : Code.Marks (([] : List CodeToken).map CodeToken.token) []
    (Code.ofTokens tokens).tokens :=
    Code.marks_ofTokens tokens
  obtain ⟨found, writes, ordered, exact⟩ := Code.writesFrom_eq marks
  refine ⟨found, ?_, ordered, fun place write => ?_⟩
  · rw [scanWrites, Code.read, lexed, ← writes]
    rfl
  · rw [exact, ← Code.map_token_ofTokens]
    simp

/-- A fragment with writes and with signs that write nothing. -/
def nearWrites : Text :=
  "a>>>=b>=c;d> >=e;f.g=h;++i;this.j-- == --k;/*l=m*/n/**/+=o< <=p;q!=r;s=-- t".toList

theorem nearWrites_exists_scanWrites : ∃ (tokens : List Token) (found : List (Nat × VariableWrite)),
    lex nearWrites = .ok tokens ∧
    (found.map fun entry => (entry.2.name, entry.2.qualified, entry.2.op)) =
      [("a".toList, false, .ushr), ("i".toList, false, .increment), ("j".toList, true, .decrement),
        ("k".toList, false, .decrement), ("n".toList, false, .add), ("s".toList, false, .assign),
        ("t".toList, false, .decrement)] ∧
    scanWrites nearWrites = .ok (found.map Prod.snd) ∧ (found.map Prod.fst).Pairwise (· < ·) ∧
    ∀ place write, (place, write) ∈ found ↔
      Token.WriteAt (tokens.filter fun token => !token.isComment) place write := by
  have scanned : (scanWrites nearWrites).toOption.map
      (List.map fun write => (write.name, write.qualified, write.op)) =
        some [("a".toList, false, .ushr), ("i".toList, false, .increment),
          ("j".toList, true, .decrement), ("k".toList, false, .decrement),
          ("n".toList, false, .add),
          ("s".toList, false, .assign), ("t".toList, false, .decrement)] := by
    decide +kernel
  cases lexed : lex nearWrites with
  | error failure =>
      rw [scanWrites, Code.read, lexed] at scanned
      cases scanned
  | ok tokens =>
      obtain ⟨found, writes, ordered, exact⟩ := exists_scanWrites lexed
      rw [writes] at scanned
      have each := Option.some.inj scanned
      rw [List.map_map] at each
      exact ⟨tokens, found, rfl, each, writes, ordered, exact⟩

end JavaRecords
