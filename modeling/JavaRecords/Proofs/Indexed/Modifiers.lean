import JavaRecords.Proofs.Indexed.Pieces
import JavaRecords.Proofs.Parse.Continued

set_option autoImplicit false

namespace JavaRecords.Indexed

namespace Tape

variable (tape : Tape)

/-- The place of the last token of the qualified name whose part ends at the place `i`. -/
def qualifiedEnd (limit i : Nat) : Nat :=
  if _ : i + 2 < limit then
    if tape.isPunct (i + 1) '.' && tape.isIdent (i + 2) then qualifiedEnd limit (i + 2) else i
  else i
termination_by limit - i

/-- The place of the last token of the annotation whose name starts after the place `i`. -/
def annotationEnd (limit i : Nat) : Run Nat :=
  let name := tape.qualifiedEnd limit (i + 1)
  if name + 1 < limit && tape.isPunct (name + 1) '(' then tape.matching (name + 1) '(' ')' limit
  else return name

def annotationAt (limit i : Nat) : Run (Option (Modifiers × Nat)) :=
  if tape.isWord (i + 1) "interface" || !tape.isIdent (i + 1) then return none
  else do
    let last ← tape.annotationEnd limit i
    let text ← tape.spanText i last
    return some (⟨[], [text]⟩, last + 1)

/-- The modifier that the identifier at a place spells, and the place after it. -/
def wordModifierAt (i : Nat) : Run (Option (Modifiers × Nat)) :=
  if tape.isIdent i then do
    let word ← tape.text i
    return (Modifier.ofWord? word).map fun modifier => (⟨[modifier], []⟩, i + 1)
  else return none

def modifierAt (limit i : Nat) : Run (Option (Modifiers × Nat)) :=
  if tape.isPunct i '@' then tape.annotationAt limit i
  else if tape.isWord i "non" && tape.isPunct (i + 1) '-' && tape.isWord (i + 2) "sealed" then
    return some (⟨[.nonSealed], []⟩, i + 3)
  else tape.wordModifierAt i

def modifiersFrom (limit : Nat) (found : Modifiers) (i : Nat) : Run (Modifiers × Nat) :=
  if _ : i < limit then do
    match ← tape.modifierAt limit i with
    | none => return (found, i)
    | some (add, next) =>
        if _ : i < next then
          modifiersFrom limit
            ⟨found.keywords ++ add.keywords, found.annotations ++ add.annotations⟩ next
        else stuck
  else return (found, i)
termination_by limit - i

def modifiers (limit i : Nat) : Run (Modifiers × Nat) := tape.modifiersFrom limit {} i

def typeParams (limit i : Nat) : Run (Option Text × Nat) :=
  if tape.isPunct i '<' then do
    let closing ← tape.matching i '<' '>' limit
    let text ← tape.spanText i closing
    return (some text, closing + 1)
  else return (none, i)

end Tape

/-- The separators that can stand behind a part that is read by itself. -/
def fences : List Char := ['}', ')', ',', '=', ';']

/-- A part of the code behind which nothing stands that could belong to it. -/
structure Guarded (all : List CodeToken) (i : Nat) (part : List CodeToken) (j : Nat) : Prop where
  stretch : Stretch all i part j
  fence : Ends part ∨ ∀ next, all[j]? = some next → ∃ c ∈ fences, next.isPunct c = true

theorem stopsPiece_of_isIdent {code : CodeToken} (ident : code.isIdent = true) :
    stopsPiece code = false := by
  simp [stopsPiece, CodeToken.isPunct_of_isIdent ident]

theorem stopsPiece_of_isPunct {code : CodeToken} {c : Char} (punct : code.isPunct c = true)
    (other : (c == ';' || c == '}') = false) : stopsPiece code = false := by
  rw [stopsPiece, CodeToken.isPunct_of_isPunct punct, CodeToken.isPunct_of_isPunct punct, other]

theorem not_ends_concat (front : List CodeToken) {last : CodeToken}
    (goes : stopsPiece last = false) :
    ¬Ends (front ++ [last]) := by
  simp [Ends, goes]

namespace Guarded

variable {all left right part rest : List CodeToken} {first next : CodeToken} {i j : Nat}

/-- What is left of a part after some tokens that do not end a piece. -/
theorem drop (guarded : Guarded all i (left ++ right) j) (goes : ¬Ends left) :
    Guarded all (i + left.length) right j := by
  refine ⟨guarded.stretch.append.2, guarded.fence.imp_left fun ends => ?_⟩
  cases right with
  | nil => exact absurd (List.append_nil left ▸ ends) goes
  | cons first rest =>
      rw [Ends, List.getLast?_append_of_ne_nil _ (List.cons_ne_nil _ _)] at ends
      exact ends

theorem tail (guarded : Guarded all i (first :: rest) j) (goes : stopsPiece first = false) :
    Guarded all (i + 1) rest j := by
  have goes : ¬Ends ([] ++ [first]) := not_ends_concat _ goes
  exact drop (show Guarded all i ([first] ++ rest) j from guarded) goes

/-- The first piece of a part in front of a fence. -/
theorem of_append (stretch : Stretch all i (left ++ right) j) (ends : right = [] ∨ Ends left)
    (fence : ∀ next, all[j]? = some next → ∃ c ∈ fences, next.isPunct c = true) :
    Guarded all i left (i + left.length) := by
  refine ⟨stretch.append.1, ?_⟩
  obtain rfl | ends := ends
  · rw [← stretch.append.2.eq_of_nil]
    exact .inr fence
  · exact .inl ends

/-- The token behind an empty part. -/
theorem behind (guarded : Guarded all i [] j) (found : all[i]? = some next) :
    ∃ c ∈ fences, next.isPunct c = true := by
  obtain ends | fence := guarded.fence
  · cases ends
  · exact fence next (guarded.stretch.eq_of_nil ▸ found)

end Guarded

theorem qualifiers_isIdent (code : List CodeToken) :
    ∀ last ∈ (Code.qualifiers code).1.getLast?, last.isIdent = true := by
  fun_induction Code.qualifiers code with
  | case1 dot name rest named more remaining split ih =>
      rw [split] at ih
      intro last isLast
      cases more with
      | nil =>
          cases isLast
          exact (Bool.and_eq_true_iff.mp named).2
      | cons first more => exact ih last (by simpa using isLast)
  | case2 => exact fun _ absent => (by cases absent)
  | case3 => exact fun _ absent => (by cases absent)

theorem closing_of_close? {left right : Char} {depth : Nat} {code : List CodeToken}
    {enclosed : Enclosed} (closed : Code.close? left right depth code = some enclosed) :
    enclosed.closing.isPunct right = true := by
  fun_induction Code.close? left right depth code generalizing enclosed with
  | case1 => cases closed
  | case3 first rest _ closes =>
      cases closed
      exact closes
  | case2 _ _ _ _ ih | case4 _ _ _ _ _ ih | case5 _ _ _ _ _ ih =>
      obtain ⟨inner, found, rfl⟩ := Option.map_eq_some_iff.mp closed
      have isClosing := ih found
      exact isClosing

theorem not_ends_of_modifier? {code : List CodeToken} {step : ModifierStep}
    (found : Code.modifier? code = .ok (some step)) : ¬Ends step.taken := by
  have word : ∀ {first rest}, Code.wordModifier? first rest = some step → ¬Ends step.taken := by
    intro first rest found
    unfold Code.wordModifier? at found
    split at found
    · obtain ⟨modifier, -, rfl⟩ := Option.map_eq_some_iff.mp found
      exact not_ends_concat [] (stopsPiece_of_isIdent ‹_›)
    · cases found
  unfold Code.modifier? at found
  split at found
  · cases found
  · rename_i first rest
    split at found
    · obtain ⟨name, rest, rfl, named, ⟨-, rfl⟩ | ⟨paren, after, enclosed, -, -, closed, rfl⟩⟩ :=
        Code.annotation?_eq_some found
      · have last := qualifiers_isIdent rest
        obtain empty | ⟨front, last', concat⟩ := List.eq_nil_or_concat (Code.qualifiers rest).1
        · rw [empty]
          exact not_ends_concat [first]
            (stopsPiece_of_isIdent (Bool.and_eq_true_iff.mp named).1)
        · rw [concat, List.concat_eq_append] at last ⊢
          exact not_ends_concat (first :: name :: front)
            (stopsPiece_of_isIdent (last last' (by simp)))
      · exact not_ends_concat _ (stopsPiece_of_isPunct (closing_of_close? closed) (by decide))
    · split at found
      · rename_i dash sealed after
        split at found
        · rename_i spelled
          cases found
          exact not_ends_concat [first, dash] (stopsPiece_of_isIdent
            (CodeToken.isIdent_of_isWord (Bool.and_eq_true_iff.mp spelled).2))
        · exact word (Except.ok.inj found)
      · exact word (Except.ok.inj found)

namespace Tape.Holds

variable {tape : Tape} {all part rest : List CodeToken} {first : CodeToken} {i j : Nat}
  (holds : tape.Holds all)
include holds

/-- The token at the first place of a part or behind it is an identifier if it is one of
the part. -/
theorem isIdent_head (guarded : Guarded all i part j) :
    tape.isIdent i = part.head?.any CodeToken.isIdent := by
  cases part with
  | cons first rest => exact holds.isIdent_eq guarded.stretch.head
  | nil =>
      cases found : all[i]? with
      | none => exact holds.isIdent_of_none found
      | some next =>
          obtain ⟨c, -, punct⟩ := guarded.behind found
          rw [holds.isIdent_eq found]
          by_contra ident
          rw [CodeToken.isPunct_of_isIdent (by simpa using ident)] at punct
          cases punct

theorem isNamed_head (guarded : Guarded all i part j) (name : Text) :
    tape.isNamed i name = part.head?.any (·.token.isWord name) := by
  cases part with
  | cons first rest => simp [Tape.isNamed, holds.getElem?, guarded.stretch.head]
  | nil =>
      have ident := holds.isIdent_head guarded
      rw [Tape.isIdent] at ident
      rw [Tape.isNamed]
      cases found : tape.tokens[i]? with
      | none => rfl
      | some next =>
          rw [found, Option.any_some, List.head?_nil, Option.any_none, Token.isIdent] at ident
          rw [Option.any_some, Token.isWord, ident]
          rfl

theorem isWord_head (guarded : Guarded all i part j) (word : String) :
    tape.isWord i word = part.head?.any (·.isWord word) := holds.isNamed_head guarded word.toList

theorem isPunct_head (guarded : Guarded all i part j) {c : Char} (plain : c ∉ fences) :
    tape.isPunct i c = part.head?.any (·.isPunct c) := by
  cases part with
  | cons first rest => exact holds.isPunct_eq guarded.stretch.head c
  | nil =>
      cases found : all[i]? with
      | none => exact holds.isPunct_of_none found c
      | some next =>
          obtain ⟨d, fence, punct⟩ := guarded.behind found
          rw [holds.isPunct_eq found, CodeToken.isPunct_of_isPunct punct]
          simp only [List.head?_nil, Option.any_none, beq_eq_false_iff_ne]
          rintro rfl
          exact plain fence

theorem qualifiedEnd_eq (stretch : Stretch all i (first :: rest) j) :
    tape.qualifiedEnd j i = i + (Code.qualifiers rest).1.length := by
  fun_induction Code.qualifiers rest generalizing i first with
  | case1 dot name rest named more remaining split ih =>
      have size := stretch.length
      simp only [List.length_cons] at size
      rw [split] at ih
      rw [Tape.qualifiedEnd, dif_pos (by omega), holds.isPunct_eq stretch.tail.head,
        holds.isIdent_eq stretch.tail.tail.head, if_pos named, ih stretch.tail.tail]
      simp only [List.length_cons]
      omega
  | case2 dot name rest unnamed =>
      have size := stretch.length
      simp only [List.length_cons] at size
      rw [Tape.qualifiedEnd, dif_pos (by omega), holds.isPunct_eq stretch.tail.head,
        holds.isIdent_eq stretch.tail.tail.head, if_neg unnamed]
      rfl
  | case3 rest short =>
      have size := stretch.length
      rw [Tape.qualifiedEnd, dif_neg]
      · rfl
      · rcases rest with _ | ⟨dot, _ | ⟨name, rest⟩⟩
        · simp at size
          omega
        · simp at size
          omega
        · exact absurd rfl (short dot name rest)

/-- An annotation ends where it does in the part that it starts. -/
theorem annotationEnd_eq {sign name : CodeToken} (stretch : Stretch all i (sign :: name :: rest) j)
    (named : (name.isIdent && !name.isWord "interface") = true) :
    (∃ error, Code.annotation? sign (name :: rest) = .error error ∧
      tape.annotationEnd j i = .error (.parse error)) ∨
    ∃ step, Code.annotation? sign (name :: rest) = .ok (some step) ∧
      tape.annotationEnd j i = .ok (i + step.taken.length - 1) := by
  have joined := Code.qualifiers_append rest
  rw [Tape.annotationEnd, holds.qualifiedEnd_eq stretch.tail, Code.annotation?, if_pos named]
  generalize Code.qualifiers rest = read at joined
  obtain ⟨qualifier, rest'⟩ := read
  obtain rfl : qualifier ++ rest' = rest := joined
  have behind : Stretch all (i + 1 + qualifier.length + 1) rest' j := by
    have behind := (show Stretch all i ((sign :: name :: qualifier) ++ rest') j
      from stretch).append.2
    rwa [List.length_cons, List.length_cons,
      show i + (qualifier.length + 1 + 1) = i + 1 + qualifier.length + 1 by omega] at behind
  dsimp only
  cases rest' with
  | nil =>
      refine .inr ⟨_, rfl, ?_⟩
      rw [if_neg (by simp [behind.eq_of_nil])]
      simp only [Code.annotationStep, List.length_cons, pure_eq_ok]
      congr 1
      omega
  | cons paren after =>
      rw [holds.isPunct_eq behind.head, decide_eq_true behind.lt, Bool.true_and]
      dsimp only
      cases isParen : paren.isPunct '(' with
      | false =>
          refine .inr ⟨_, rfl, ?_⟩
          simp only [Code.annotationStep, List.length_cons, pure_eq_ok, Bool.false_eq_true,
            if_false]
          congr 1
          omega
      | true =>
          rw [if_pos rfl, if_pos rfl, holds.matching_eq behind isParen]
          cases Code.close '(' ')' paren after with
          | error error => exact .inl ⟨error, rfl, rfl⟩
          | ok enclosed =>
              refine .inr ⟨_, rfl, ?_⟩
              simp only [Code.annotationStep, List.length_cons, List.length_append, List.length_nil,
                Except.map, lift_ok]
              congr 1
              omega

theorem annotationAt_eq {sign : CodeToken} {code : List CodeToken}
    (guarded : Guarded all i (sign :: code) j) (isSign : sign.isPunct '@' = true) :
    tape.annotationAt j i = lift ((Code.annotation? sign code).map fun found =>
      found.map fun step => (step.add, i + step.taken.length)) := by
  have next := guarded.tail (stopsPiece_of_isPunct isSign (by decide))
  rw [Tape.annotationAt, holds.isWord_head next, holds.isIdent_head next]
  cases code with
  | nil => rfl
  | cons name rest =>
      simp only [List.head?_cons, Option.any_some]
      by_cases named : (name.isIdent && !name.isWord "interface") = true
      · have stretch := guarded.stretch
        have isName : (name.isWord "interface" || !name.isIdent) = false := by simp_all
        simp only [isName, Bool.false_eq_true, if_false]
        obtain ⟨error, read, found⟩ | ⟨step, read, found⟩ := holds.annotationEnd_eq stretch named
        · rw [read, found]
          rfl
        · obtain ⟨joined, nonempty, add⟩ := Code.append_of_annotation? read
          have positive := List.length_pos_iff.mpr nonempty
          rw [← joined] at stretch
          rw [read, found, ok_bind, holds.spanText_eq stretch.append.1 nonempty]
          simp only [ok_bind, pure_eq_ok, Except.map, lift_ok, Option.map_some, add]
          congr 3
          omega
      · have noName : (name.isWord "interface" || !name.isIdent) = true := by
          rw [Bool.and_eq_true, not_and] at named
          cases isIdent : name.isIdent <;> simp_all
        simp only [noName, if_true, Code.annotation?, if_neg named]
        rfl

/-- What `non-sealed` is made of. -/
theorem isSealed_eq (guarded : Guarded all i (first :: rest) j) :
    (tape.isWord i "non" && tape.isPunct (i + 1) '-' && tape.isWord (i + 2) "sealed") =
      (first.isWord "non" && rest.head?.any (·.isPunct '-') &&
        rest.tail.head?.any (·.isWord "sealed")) := by
  rw [holds.isWord_eq guarded.stretch.head]
  cases isNon : first.isWord "non" with
  | false => rfl
  | true =>
      have second := guarded.tail (stopsPiece_of_isIdent (CodeToken.isIdent_of_isWord isNon))
      rw [holds.isPunct_head second (by decide)]
      cases rest with
      | nil => rfl
      | cons dash after =>
          cases isDash : dash.isPunct '-' with
          | false => simp [isDash]
          | true =>
              have third := second.tail (stopsPiece_of_isPunct isDash (by decide))
              rw [holds.isWord_head third, List.tail_cons]

theorem wordModifierAt_eq (stretch : Stretch all i (first :: rest) j) :
    tape.wordModifierAt i = .ok ((Code.wordModifier? first rest).map fun step =>
      (step.add, i + step.taken.length)) := by
  rw [Tape.wordModifierAt, Code.wordModifier?, holds.isIdent_eq stretch.head,
    holds.text_eq stretch.head]
  cases first.isIdent with
  | false => rfl
  | true => simp [Function.comp_def]

theorem modifierAt_eq (guarded : Guarded all i (first :: rest) j) :
    tape.modifierAt j i = lift ((Code.modifier? (first :: rest)).map fun found =>
      found.map fun step => (step.add, i + step.taken.length)) := by
  rw [Tape.modifierAt, holds.isPunct_eq guarded.stretch.head, Code.modifier?.eq_def]
  dsimp only
  by_cases isSign : first.isPunct '@' = true
  · rw [if_pos isSign, if_pos isSign, holds.annotationAt_eq guarded isSign]
  · rw [if_neg isSign, if_neg isSign, holds.isSealed_eq guarded,
      holds.wordModifierAt_eq guarded.stretch]
    rcases rest with _ | ⟨dash, _ | ⟨word, after⟩⟩
    · simp [Except.map]
    · simp [Except.map]
    · simp only [List.head?_cons, Option.any_some, List.tail_cons]
      split
      · simp_all [Except.map]
      · simp_all [Except.map]

theorem modifiersFrom_of_some (found : Modifiers) {step : ModifierStep}
    (guarded : Guarded all i part j) (read : Code.modifier? part = .ok (some step)) :
    tape.modifiersFrom j found i =
        tape.modifiersFrom j ⟨found.keywords ++ step.add.keywords,
          found.annotations ++ step.add.annotations⟩ (i + step.taken.length) ∧
      Guarded all (i + step.taken.length) step.rest j := by
  obtain ⟨joined, nonempty, -⟩ := Code.append_of_modifier? read
  cases part with
  | nil => cases read
  | cons first rest =>
      constructor
      · rw [Tape.modifiersFrom, dif_pos guarded.stretch.lt, holds.modifierAt_eq guarded, read]
        simp only [Except.map, lift_ok, ok_bind, Option.map_some]
        rw [dif_pos (Nat.lt_add_of_pos_right (List.length_pos_iff.mpr nonempty))]
      · rw [← joined] at guarded
        exact guarded.drop (not_ends_of_modifier? read)

theorem modifiersFrom_eq (found : Modifiers) (guarded : Guarded all i part j) :
    tape.modifiersFrom j found i = lift ((Code.modifiers part).map fun run =>
      (⟨found.keywords ++ run.modifiers.keywords, found.annotations ++ run.modifiers.annotations⟩,
        i + run.taken.length)) := by
  fun_induction Code.modifiers part generalizing i found with
  | case1 part error read =>
      cases part with
      | nil => cases read
      | cons first rest =>
          rw [Tape.modifiersFrom, dif_pos guarded.stretch.lt, holds.modifierAt_eq guarded, read]
          rfl
  | case2 part read =>
      cases part with
      | nil =>
          rw [Tape.modifiersFrom, dif_neg (by simp [guarded.stretch.eq_of_nil])]
          simp [Except.map]
      | cons first rest =>
          rw [Tape.modifiersFrom, dif_pos guarded.stretch.lt, holds.modifierAt_eq guarded, read]
          simp [Except.map]
  | case3 part step read error inner ih =>
      obtain ⟨goes, behind⟩ := holds.modifiersFrom_of_some found guarded read
      rw [goes, ih _ behind, inner]
      rfl
  | case4 part step read run inner ih =>
      obtain ⟨goes, behind⟩ := holds.modifiersFrom_of_some found guarded read
      rw [goes, ih _ behind, inner]
      simp [Except.map, Nat.add_assoc]

/-- A bracket is closed in the part that it starts, or nowhere. -/
theorem enclosed_cases {left right : Char} (stretch : Stretch all i (first :: rest) j)
    (opens : first.isPunct left = true) :
    (∃ error, Code.close left right first rest = .error error ∧
      tape.matching i left right j = .error (.parse error)) ∨
    ∃ enclosed closing, Code.close left right first rest = .ok enclosed ∧
      tape.matching i left right j = .ok closing ∧
      Stretch all (i + 1) enclosed.inside closing ∧
      (∀ next, all[closing]? = some next → next.isPunct right = true) ∧
      enclosed.closing.isPunct right = true ∧ Stretch all (closing + 1) enclosed.rest j := by
  rw [holds.matching_eq stretch opens, Code.close]
  cases closed : Code.close? left right 0 rest with
  | none => exact .inl ⟨_, rfl, rfl⟩
  | some enclosed =>
      have inner := stretch.tail
      rw [← Code.tokens_of_close? closed] at inner
      have isClosing := closing_of_close? closed
      refine .inr ⟨enclosed, _, rfl, rfl, inner.append.1, fun next found => ?_, isClosing,
        inner.append.2.tail⟩
      obtain rfl : enclosed.closing = next := Option.some.inj (inner.append.2.head.symm.trans found)
      exact isClosing

theorem modifiers_eq (guarded : Guarded all i part j) :
    tape.modifiers j i = lift ((Code.modifiers part).map fun run =>
      (run.modifiers, i + run.taken.length)) := by
  rw [Tape.modifiers, holds.modifiersFrom_eq _ guarded]
  simp

theorem guarded_of_modifiers {run : ModifierRun} (guarded : Guarded all i part j)
    (read : Code.modifiers part = .ok run) : Guarded all (i + run.taken.length) run.rest j := by
  fun_induction Code.modifiers part generalizing i run with
  | case1 => cases read
  | case2 => cases read; exact guarded
  | case3 => cases read
  | case4 part step found inner more ih =>
      cases read
      have behind := ih (holds.modifiersFrom_of_some {} guarded found).2 more
      rwa [List.length_append, ← Nat.add_assoc]

theorem typeParams_eq (guarded : Guarded all i part j) :
    (∃ error, Code.typeParams? part = .error error ∧ tape.typeParams j i = .error (.parse error)) ∨
    ∃ params taken rest, part = taken ++ rest ∧ Code.typeParams? part = .ok (params, rest) ∧
      tape.typeParams j i = .ok (params, i + taken.length) ∧
      Guarded all (i + taken.length) rest j := by
  rw [Tape.typeParams, holds.isPunct_head guarded (by decide)]
  cases part with
  | nil => exact .inr ⟨none, [], [], rfl, rfl, rfl, guarded⟩
  | cons angle rest =>
      rw [List.head?_cons, Option.any_some, Code.typeParams?]
      cases opens : angle.isPunct '<' with
      | false => exact .inr ⟨none, [], angle :: rest, rfl, rfl, rfl, guarded⟩
      | true =>
          simp only [if_true]
          obtain ⟨error, read, found⟩ | ⟨enclosed, closing, read, found, inside, -, isClosing, -⟩ :=
            holds.enclosed_cases guarded.stretch opens
          · rw [read, found]
            exact .inl ⟨error, rfl, rfl⟩
          · have whole : angle :: enclosed.inside ++ [enclosed.closing] ++ enclosed.rest =
                angle :: rest := by
              simpa [Enclosed.tokens] using Code.tokens_of_close? (Code.close_eq_ok read)
            have size := inside.length
            have place : i + (angle :: enclosed.inside ++ [enclosed.closing]).length =
              closing + 1 := by
              simp
              omega
            rw [← whole] at guarded
            have behind := guarded.drop
              (not_ends_concat _ (stopsPiece_of_isPunct isClosing (by decide)))
            have span := holds.spanText_eq guarded.stretch.append.1 (by simp)
            rw [place, Nat.add_sub_cancel] at span
            rw [read, found]
            refine .inr ⟨_, _, enclosed.rest, whole.symm, rfl, ?_, behind⟩
            rw [ok_bind, span, place]
            rfl

end Tape.Holds

end JavaRecords.Indexed
