import JavaRecords.Proofs.Code.Relexed

set_option autoImplicit false

namespace JavaRecords

namespace Token

/-- Whether a `>` behind some tokens, given from right to left, closes a `<` among them. `depth`
counts the `>` met on the way that are still to be closed. -/
def closesAngle (depth : Nat) : List Token → Bool
  | [] => false
  | token :: earlier =>
      if token.isPunct '>' then closesAngle (depth + 1) earlier
      else if token.isPunct '<' then depth == 0 || closesAngle (depth - 1) earlier
      else closesAngle depth earlier

/-- Tokens, given from right to left, end with a type: with a name, a pair of brackets or closed
angle brackets. -/
def EndsType : List Token → Prop
  | [] => False
  | last :: earlier => (last.isIdent = true ∧ isTypeName last.text = true) ∨
      (last.isPunct ']' = true ∧ ∃ opening ∈ earlier.head?, opening.isPunct '[' = true) ∨
      (last.isPunct '>' = true ∧ closesAngle 0 earlier = true)

/-- Tokens declare a name: it stands behind a type or in front of an arrow. -/
def Declares (tokens : List Token) (name : Text) : Prop :=
  ∃ before token after, tokens = List.reverse before ++ token :: after ∧ token.isWord name = true ∧
    (EndsType before ∨ spells "->".toList after = true)

/-- Tokens begin with what can stand behind the name of a variable where it is declared. -/
def EndsName (tokens : List Token) : Prop :=
  Begins .assign tokens ∨ ∃ next ∈ tokens.head?, ∃ c ∈ [';', ',', ':', ')'], next.isPunct c = true

/-- A name stands behind a `>` that closes no angle bracket, as if its declaration ended there. -/
def FollowsAngle (tokens : List Token) (name : Text) : Prop :=
  ∃ before last token after, tokens = List.reverse (last :: before) ++ token :: after ∧
    token.isWord name = true ∧ last.isPunct '>' = true ∧ closesAngle 0 before = false ∧
    EndsName after

/-- Whether some tokens declare a name, with the tokens before them from right to left. -/
def declaresFrom (name : Text) (before : List Token) : List Token → Prop
  | [] => False
  | token :: after => (token.isWord name = true ∧
      (EndsType before ∨ spells "->".toList after = true)) ∨
      declaresFrom name (token :: before) after

theorem declaresFrom_iff (name : Text) (before tokens : List Token) :
    declaresFrom name before tokens ↔ ∃ front token after, tokens = front ++ token :: after ∧
      token.isWord name = true ∧ (EndsType (front.reverse ++ before) ∨
        spells "->".toList after = true) := by
  induction tokens generalizing before with
  | nil => simp [declaresFrom]
  | cons first rest ih =>
      rw [declaresFrom, ih]
      constructor
      · rintro (here | ⟨front, token, after, rfl, isName, declares⟩)
        · exact ⟨[], first, rest, rfl, here⟩
        · refine ⟨first :: front, token, after, rfl, isName, ?_⟩
          rwa [List.reverse_cons, List.append_assoc]
      · rintro ⟨_ | ⟨_, front⟩, token, after, split, isName, declares⟩
        · cases split
          exact Or.inl ⟨isName, declares⟩
        · cases split
          refine Or.inr ⟨front, token, after, rfl, isName, ?_⟩
          rwa [List.reverse_cons, List.append_assoc] at declares

theorem declares_iff (tokens : List Token) (name : Text) :
    Declares tokens name ↔ declaresFrom name [] tokens := by
  rw [declaresFrom_iff]
  constructor
  · rintro ⟨before, token, after, rfl, declares⟩
    exact ⟨before.reverse, token, after, rfl, by simpa using declares⟩
  · rintro ⟨front, token, after, rfl, declares⟩
    exact ⟨front.reverse, token, after, by simp, by simpa using declares⟩

instance : DecidablePred EndsType
  | [] => inferInstanceAs (Decidable False)
  | last :: earlier => inferInstanceAs
      (Decidable ((last.isIdent = true ∧ isTypeName last.text = true) ∨
      (last.isPunct ']' = true ∧ ∃ opening ∈ earlier.head?, opening.isPunct '[' = true) ∨
      (last.isPunct '>' = true ∧ closesAngle 0 earlier = true)))

instance decidableDeclaresFrom (name : Text) :
    ∀ before tokens : List Token, Decidable (declaresFrom name before tokens)
  | _, [] => inferInstanceAs (Decidable False)
  | before, token :: after =>
      have := decidableDeclaresFrom name (token :: before) after
      inferInstanceAs (Decidable ((token.isWord name = true ∧
        (EndsType before ∨ spells "->".toList after = true)) ∨
          declaresFrom name (token :: before) after))

instance (tokens : List Token) (name : Text) : Decidable (Declares tokens name) :=
  decidable_of_iff _ (declares_iff tokens name).symm

variable (distance : Nat)

@[simp] theorem closesAngle_slide (depth : Nat) (before : List Token) :
    closesAngle depth (before.map (slide distance)) = closesAngle depth before := by
  induction before generalizing depth with
  | nil => rfl
  | cons token earlier ih =>
      rw [List.map_cons, closesAngle, closesAngle, ih, ih, ih, isPunct_slide, isPunct_slide]

theorem endsType_slide (before : List Token) :
    EndsType (before.map (slide distance)) ↔ EndsType before := by
  cases before with
  | nil => rfl
  | cons last earlier =>
      have opens : (∃ opening ∈ (earlier.map (slide distance)).head?, opening.isPunct '[' = true) ↔
          ∃ opening ∈ earlier.head?, opening.isPunct '[' = true := by
        cases earlier <;> simp
      simp only [List.map_cons, EndsType, opens, closesAngle_slide, isIdent_slide, isPunct_slide,
        text_slide]

theorem endsName_slide (tokens : List Token) :
    EndsName (tokens.map (slide distance)) ↔ EndsName tokens := by
  have marks : (∃ next ∈ (tokens.map (slide distance)).head?,
      ∃ c ∈ [';', ',', ':', ')'], next.isPunct c = true) ↔
      ∃ next ∈ tokens.head?, ∃ c ∈ [';', ',', ':', ')'], next.isPunct c = true := by
    cases tokens <;> simp
  rw [EndsName, EndsName, marks, Begins, Begins, spells_slide, spells_slide]

theorem declares_slide (tokens : List Token) (name : Text) :
    Declares (tokens.map (slide distance)) name ↔ Declares tokens name := by
  constructor
  · rintro ⟨_, _, _, split, isName, declares⟩
    obtain ⟨front, behind, rfl, isFront, isBehind⟩ := List.map_eq_append_iff.mp split
    obtain ⟨token, after, rfl, rfl, rfl⟩ := List.map_eq_cons_iff.mp isBehind
    have before := congrArg List.reverse isFront
    rw [List.reverse_reverse, ← List.map_reverse] at before
    subst before
    rw [endsType_slide, spells_slide] at declares
    exact ⟨front.reverse, token, after, by rw [List.reverse_reverse], isName, declares⟩
  · rintro ⟨before, token, after, rfl, isName, declares⟩
    refine ⟨before.map (slide distance), token.slide distance, after.map (slide distance),
      by simp, isName, ?_⟩
    rw [endsType_slide, spells_slide]
    exact declares

theorem followsAngle_slide (tokens : List Token) (name : Text) :
    FollowsAngle (tokens.map (slide distance)) name ↔ FollowsAngle tokens name := by
  constructor
  · rintro ⟨_, _, _, _, split, isName, isAngle, unclosed, ends⟩
    obtain ⟨front, behind, rfl, isFront, isBehind⟩ := List.map_eq_append_iff.mp split
    obtain ⟨token, after, rfl, rfl, rfl⟩ := List.map_eq_cons_iff.mp isBehind
    have before := congrArg List.reverse isFront
    rw [List.reverse_reverse, ← List.map_reverse] at before
    obtain ⟨last, earlier, isLast, rfl, rfl⟩ := List.map_eq_cons_iff.mp before
    rw [closesAngle_slide] at unclosed
    exact ⟨earlier, last, token, after, by rw [← isLast, List.reverse_reverse], isName, isAngle,
      unclosed, (endsName_slide distance after).mp ends⟩
  · rintro ⟨before, last, token, after, rfl, isName, isAngle, unclosed, ends⟩
    refine ⟨before.map (slide distance), last.slide distance, token.slide distance,
      after.map (slide distance), by simp, isName, isAngle, ?_, ?_⟩
    · rwa [closesAngle_slide]
    · exact (endsName_slide distance after).mpr ends

end Token

namespace Code

theorem exists_of_mem_declaredFrom {declared : List Text} {before code : List CodeToken}
    {name : Text} (listed : name ∈ declaredFrom declared before code) :
    name ∈ declared ∨ ∃ front token rest, code = front ++ token :: rest ∧
      token.token.isWord name = true ∧ (startsArrow rest = true ∨
        (endsDeclarator rest = true ∧ endsType (front.reverse ++ before) = true)) := by
  induction code generalizing declared before with
  | nil => exact Or.inl listed
  | cons code rest ih =>
      rw [declaredFrom] at listed
      rcases ih listed with found | ⟨front, token, more, rfl, isName, place⟩
      · split at found
        · rename_i declares
          rcases List.mem_append.mp found with before | here
          · exact Or.inl before
          · right
            simp only [Bool.and_eq_true, Bool.or_eq_true] at declares
            obtain ⟨⟨⟨⟨_, isIdent⟩, _⟩, place⟩, _⟩ := declares
            refine ⟨[], code, rest, rfl, ?_, place⟩
            rw [List.mem_singleton.mp here]
            simpa [Token.isWord, CodeToken.isIdent, Token.isIdent, CodeToken.text] using isIdent
        · exact Or.inl found
      · refine Or.inr ⟨code :: front, token, more, rfl, isName, ?_⟩
        rwa [List.reverse_cons, List.append_assoc]

theorem spells_of_startsArrow {before : List Token} {code : List CodeToken}
    (marks : Marks before [] code) (starts : startsArrow code = true) :
    Token.spells "->".toList (code.map CodeToken.token) = true := by
  rcases code with _ | ⟨dash, _ | ⟨angle, rest⟩⟩
  · cases starts
  · cases starts
  · simp only [startsArrow, Bool.and_eq_true] at starts
    have arrow := marks.2.2.2.1.symm.trans starts.2
    simp only [Token.endsArrow, List.head?_cons, Option.any_some, Bool.and_eq_true] at arrow
    change Token.spells ['-', '>'] (dash.token :: angle.token :: rest.map CodeToken.token) = true
    simp [Token.spells, arrow]

theorem endsName_of_endsDeclarator {name : Token} {before : List Token} {code : List CodeToken}
    (marks : Marks (name :: before) [] code) (isName : name.kind ≠ .punct)
    (ends : endsDeclarator code = true) : Token.EndsName (code.map CodeToken.token) := by
  cases code with
  | nil => cases ends
  | cons next rest =>
      simp only [endsDeclarator, Bool.or_eq_true, beq_iff_eq] at ends
      have apart : ∀ previous ∈ (name :: before).head?, previous.kind ≠ .punct := by
        intro previous isFirst
        cases isFirst
        exact isName
      have mark : ∀ c ∈ [';', ',', ':', ')'], next.isPunct c = true →
          Token.EndsName ((next :: rest).map CodeToken.token) := fun c listed isMark =>
        Or.inr ⟨next.token, rfl, c, listed, isMark⟩
      rcases ends with (((assigns | isMark) | isMark) | isMark) | isMark
      · have ended := marks.1.symm.trans assigns
        rw [List.append_nil] at ended
        exact Or.inl ((Token.assignOp?_eq_some_iff apart [] next.token _ rfl).mp ended)
      · exact mark _ (by decide) isMark
      · exact mark _ (by decide) isMark
      · exact mark _ (by decide) isMark
      · exact mark _ (by decide) isMark

/-- A name that is found to be declared is declared, or it follows a `>` that ends no type. -/
theorem declares_of_mem_declaredFrom {code : List CodeToken} {name : Text}
    (marks : Marks [] [] code) (listed : name ∈ declaredFrom [] [] code) :
    Token.Declares (code.map CodeToken.token) name ∨
      Token.FollowsAngle (code.map CodeToken.token) name := by
  rcases exists_of_mem_declaredFrom listed with absent | ⟨front, token, rest, rfl, isName, place⟩
  · cases absent
  · have marksRest := (marks_append.mp marks).2.2.2
    have kind : token.token.kind ≠ .punct := by
      simp only [Token.isWord, Bool.and_eq_true, beq_iff_eq] at isName
      rw [isName.1]
      decide
    have split : (front ++ token :: rest).map CodeToken.token =
        List.reverse (front.reverse.map CodeToken.token) ++
          token.token :: rest.map CodeToken.token := by
      rw [← List.map_reverse, List.reverse_reverse, List.map_append, List.map_cons]
    rw [List.append_nil] at place
    have declares : Token.EndsType (front.reverse.map CodeToken.token) →
        Token.Declares ((front ++ token :: rest).map CodeToken.token) name := fun ends =>
      ⟨_, token.token, _, split, isName, Or.inl ends⟩
    rcases place with arrow | ⟨ends, type⟩
    · exact Or.inl ⟨_, token.token, _, split, isName,
        Or.inr (spells_of_startsArrow marksRest arrow)⟩
    · cases before : front.reverse with
      | nil =>
          rw [before] at type
          cases type
      | cons last earlier =>
          rw [before] at type declares split
          simp only [endsType, Bool.or_eq_true, Bool.and_eq_true] at type
          rcases type with (named | isAngle) | ⟨isBracket, opens⟩
          · exact Or.inl (declares (Or.inl named))
          · cases closed : Token.closesAngle 0 (earlier.map CodeToken.token) with
            | true => exact Or.inl (declares (Or.inr (Or.inr ⟨isAngle, closed⟩)))
            | false =>
                exact Or.inr ⟨earlier.map CodeToken.token, last.token, token.token, _,
                  split, isName, isAngle, closed, endsName_of_endsDeclarator marksRest kind ends⟩
          · cases earlier with
            | nil => cases opens
            | cons opening more =>
                exact Or.inl (declares (Or.inr (Or.inl ⟨isBracket, opening.token, rfl, opens⟩)))

end Code

end JavaRecords
