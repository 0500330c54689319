import JavaRecords.Proofs.Glob.Language

set_option autoImplicit false

namespace JavaRecords.Glob

def underscore : UInt8 := 95

/-- How the words of a pattern may end. -/
inductive Ending where
  /-- None ends in an underscore. -/
  | plain
  /-- What ends in an underscore may end in anything else. -/
  | loose
  /-- Some may need the underscore that they end in. -/
  | strict
  deriving DecidableEq, Repr

/-- The ending of the words of either kind. -/
def Ending.join : Ending → Ending → Ending
  | .plain, ending => ending
  | ending, .plain => ending
  | .loose, .loose => .loose
  | _, _ => .strict

mutual

/-- The ending after a part, where the parts before it have the ending `before`. -/
def Part.ending (before : Ending) : Part → Ending
  | .literal char => if char = '_' then .strict else .plain
  | .any => .strict
  | .many => if before = .strict then .strict else .loose
  | .leadingDirectories => before
  | .descendants => .loose
  | .innerDirectories => .plain
  | .oneOf members => if members.contains underscore then .strict else .plain
  | .group branches => if branchesVoid branches then before else branchesEnding before branches

def endingOf (before : Ending) : List Part → Ending
  | [] => before
  | part :: parts => endingOf (part.ending before) parts

def branchesEnding (before : Ending) : List (List Part) → Ending
  | [] => .plain
  | branch :: branches =>
      if partsVoid branch then branchesEnding before branches
      else (endingOf before branch).join (branchesEnding before branches)

end

/-- Whether the words of a language end as an ending says. -/
def Ending.Bounds : Ending → Language UInt8 → Prop
  | .plain, words => ∀ front, front ++ [underscore] ∉ words
  | .loose, words => ∀ front, front ++ [underscore] ∈ words → ∀ word, front ++ word ∈ words
  | .strict, _ => True

namespace Ending

variable {ending other : Ending} {words others : Language UInt8}

theorem Bounds.loose (bounds : ending.Bounds words) (free : ending ≠ .strict) :
    Ending.loose.Bounds words := by
  cases ending with
  | plain => exact fun front inWords => absurd inWords (bounds front)
  | loose => exact bounds
  | strict => exact absurd rfl free

theorem Bounds.add_plain (left : ending.Bounds words) (right : Ending.plain.Bounds others) :
    ending.Bounds (words + others) := by
  cases ending with
  | plain => exact fun front either => either.elim (left front) (right front)
  | loose =>
      exact fun front either word => either.elim (fun inLeft => .inl (left front inLeft word))
        fun inRight => absurd inRight (right front)
  | strict => trivial

theorem Bounds.add (left : ending.Bounds words) (right : other.Bounds others) :
    (ending.join other).Bounds (words + others) := by
  cases ending with
  | plain =>
      rw [add_comm]
      exact right.add_plain left
  | loose =>
      cases other with
      | plain => exact left.add_plain right
      | loose =>
          exact fun front either word => either.imp (left front · word) (right front · word)
      | strict => trivial
  | strict => cases other <;> trivial

theorem plain_mul (last : ∀ word ∈ others, ∃ front byte, word = front ++ [byte] ∧
    byte ≠ underscore) : Ending.plain.Bounds (words * others) := by
  intro front inside
  obtain ⟨before, -, word, inOthers, same⟩ := Language.mem_mul.mp inside
  obtain ⟨back, byte, rfl, differs⟩ := last word inOthers
  rw [← List.append_assoc] at same
  exact differs (List.append_singleton_inj.mp same).2

/-- Of the words that go on with anything, one that ends in an underscore goes on with it, or else
has nothing after a word that ends so itself. -/
theorem Bounds.mul_top (bounds : ending.Bounds words) (free : ending ≠ .strict) :
    Ending.loose.Bounds (words * ⊤) := by
  intro front inside other
  obtain ⟨before, inWords, word, -, same⟩ := Language.mem_mul.mp inside
  rw [Language.mem_mul]
  cases word using List.reverseRecOn with
  | nil =>
      rw [List.append_nil] at same
      exact ⟨front ++ other, bounds.loose free front (same ▸ inWords) other, [], trivial,
        List.append_nil _⟩
  | append_singleton back byte =>
      rw [← List.append_assoc] at same
      obtain ⟨rfl, -⟩ := List.append_singleton_inj.mp same
      exact ⟨before, inWords, back ++ other, trivial, (List.append_assoc before back other).symm⟩

end Ending

/-- A character ends in the byte of an underscore only if it is one. -/
theorem last_utf8EncodeChar (char : Char) (other : char ≠ '_') :
    ∃ front byte, String.utf8EncodeChar char = front ++ [byte] ∧ byte ≠ underscore := by
  have follows (n : Nat) : UInt8.ofNat (n % 64 + 128) ≠ underscore := by
    intro same
    have value := congrArg UInt8.toNat same
    simp only [UInt8.toNat_ofNat', underscore, UInt8.reduceToNat] at value
    omega
  unfold String.utf8EncodeChar
  simp only
  split
  · refine ⟨[], _, rfl, fun same => other (Char.ext (UInt32.toNat_inj.mp ?_))⟩
    have value := congrArg UInt8.toNat same
    simp only [UInt8.toNat_ofNat', underscore, UInt8.reduceToNat] at value
    change char.val.toNat = 95
    omega
  · split
    · exact ⟨[_], _, rfl, follows _⟩
    · split
      · exact ⟨[_, _], _, rfl, follows _⟩
      · exact ⟨[_, _, _], _, rfl, follows _⟩

theorem last_directory {word : List UInt8} (inside : word ∈ (⊤ * {[slash]} : Language UInt8)) :
    ∃ front byte, word = front ++ [byte] ∧ byte ≠ underscore := by
  obtain ⟨front, -, _, rfl, rfl⟩ := Language.mem_mul.mp inside
  exact ⟨front, slash, rfl, by decide⟩

mutual

/-- A part after words that end as `before` says makes words that end as its ending says. -/
theorem Part.bounds_ending (part : Part) {words : Language UInt8} {before : Ending}
    (bounds : before.Bounds words) :
    (part.ending before).Bounds (words * part.language) := by
  cases part with
  | literal char =>
      rw [Part.ending, Part.language]
      split
      · trivial
      · rename_i other
        refine Ending.plain_mul fun word inside => ?_
        rw [Set.mem_singleton_iff.mp inside]
        exact last_utf8EncodeChar char other
  | any => trivial
  | many =>
      rw [Part.ending, Part.language]
      split
      · trivial
      · exact bounds.mul_top ‹_›
  | leadingDirectories =>
      rw [Part.ending, Part.language, mul_add, mul_one]
      exact bounds.add_plain (Ending.plain_mul fun _ => last_directory)
  | descendants =>
      rw [Part.ending, Part.language, ← mul_assoc]
      have slashed : Ending.plain.Bounds (words * {[slash]}) :=
        Ending.plain_mul fun word inside => ⟨[], slash, inside, by decide⟩
      exact slashed.mul_top nofun
  | innerDirectories =>
      rw [Part.ending, Part.language, mul_add, mul_one, ← mul_assoc]
      refine Ending.plain_mul fun word inside => inside.elim ?_ ?_
      · exact fun single => ⟨[], slash, single, by decide⟩
      · intro deep
        obtain ⟨front, -, _, rfl, rfl⟩ := Language.mem_mul.mp deep
        exact ⟨front, slash, rfl, by decide⟩
  | oneOf members =>
      rw [Part.ending, Part.language]
      split
      · trivial
      · rename_i excluded
        refine Ending.plain_mul fun word inside => ?_
        obtain ⟨byte, contained, rfl⟩ := mem_oneByte.mp inside
        exact ⟨[], byte, rfl, fun same => excluded (same ▸ contained)⟩
  | group branches =>
      rw [Part.ending, Part.language]
      split
      · rwa [mul_one]
      · exact branches_bounds_ending branches bounds

theorem bounds_endingOf (parts : List Part) {words : Language UInt8} {before : Ending}
    (bounds : before.Bounds words) :
    (endingOf before parts).Bounds (words * language parts) := by
  cases parts with
  | nil =>
      rw [endingOf, language, mul_one]
      exact bounds
  | cons part parts =>
      rw [endingOf, language, ← mul_assoc]
      exact bounds_endingOf parts (part.bounds_ending bounds)

theorem branches_bounds_ending (branches : List (List Part)) {words : Language UInt8}
    {before : Ending} (bounds : before.Bounds words) :
    (branchesEnding before branches).Bounds (words * branchesLanguage branches) := by
  cases branches with
  | nil =>
      rw [branchesEnding, branchesLanguage, mul_zero]
      exact fun front => Language.notMem_zero _
  | cons branch branches =>
      rw [branchesEnding, branchesLanguage]
      split
      · exact branches_bounds_ending branches bounds
      · rw [mul_add]
        exact (bounds_endingOf branch bounds).add (branches_bounds_ending branches bounds)

end

def EndsInLiteral (pattern : List Part) : Prop := ∃ front char, pattern = front ++ [.literal char]

theorem EndsInLiteral.cons {parts : List Part} (part : Part) (ends : EndsInLiteral parts) :
    EndsInLiteral (part :: parts) := by
  obtain ⟨front, char, rfl⟩ := ends
  exact ⟨part :: front, char, rfl⟩

theorem endsInLiteral_of_literalsWithout {barred : List Char} {parts : List Part}
    (literals : literalsWithout barred parts = true) (some : parts ≠ []) :
    EndsInLiteral parts := by
  have last := List.all_eq_true.mp literals _ (List.getLast_mem some)
  split at last
  · rename_i char here
    exact ⟨parts.dropLast, char, by rw [← here, List.dropLast_append_getLast]⟩
  · exact absurd last Bool.false_ne_true

theorem endsInLiteral_of_endsInExtension {pattern : List Part}
    (ends : endsInExtension pattern.reverse = true) : EndsInLiteral pattern := by
  cases backward : pattern.reverse with
  | nil =>
      rw [backward] at ends
      exact absurd ends Bool.false_ne_true
  | cons last front =>
      rw [backward] at ends
      unfold endsInExtension at ends
      split at ends
      · rename_i char rest same
        obtain ⟨rfl, rfl⟩ := List.cons.inj same
        exact ⟨front.reverse, char, by rw [← List.reverse_cons, ← backward, List.reverse_reverse]⟩
      · exact absurd ends Bool.false_ne_true

theorem endsInLiteral_of_asksForName {pattern : List Part} (asks : asksForName pattern = true) :
    EndsInLiteral pattern := by
  unfold asksForName at asks
  split at asks
  rename_i below parts rest
  have whole (ends : EndsInLiteral parts) : EndsInLiteral pattern := by
    split at rest
    · obtain ⟨-, rfl⟩ := Prod.mk.inj rest
      exact ends.cons _
    · obtain ⟨-, rfl⟩ := Prod.mk.inj rest
      exact ends
  obtain ⟨-, name⟩ | ⟨-, asks⟩ := ite_eq_iff.mp asks
  · simp only [Bool.and_eq_true, Bool.not_eq_true', List.isEmpty_eq_false_iff] at name
    exact whole (endsInLiteral_of_literalsWithout name.2 name.1.2)
  obtain ⟨star, dot⟩ | ⟨-, extension⟩ := ite_eq_iff.mp asks
  · cases parts with
    | nil => exact absurd dot Bool.false_ne_true
    | cons part parts =>
        have some : parts ≠ [] := by
          rintro rfl
          exact absurd dot Bool.false_ne_true
        exact whole (.cons part
          (endsInLiteral_of_literalsWithout (Bool.and_eq_true_iff.mp star).2 some))
  · exact endsInLiteral_of_endsInExtension extension

theorem endingOf_append (before : Ending) (front back : List Part) :
    endingOf before (front ++ back) = endingOf (endingOf before front) back := by
  induction front generalizing before with
  | nil => rfl
  | cons part front ih => simp only [List.cons_append, endingOf, ih]

/-- A pattern that needs no underscore at the end of its words matches every path below a directory
if it matches one that is an underscore. -/
theorem isMatch_of_isMatch_underscore {pattern : List Part} {base : Text} (below : Text)
    (free : endingOf .plain pattern ≠ .strict)
    (probe : isMatch pattern (base ++ ['_']) = true) : isMatch pattern (base ++ below) = true := by
  rw [isMatch_iff] at probe ⊢
  refine probe.imp_right fun ⟨inside, _⟩ => ?_
  have bounds : (endingOf .plain pattern).Bounds (language pattern) := by
    have empty : Ending.plain.Bounds 1 := fun front => by
      rw [Language.mem_one]
      exact List.append_ne_nil_of_right_ne_nil front (List.cons_ne_nil underscore [])
    simpa only [one_mul] using bounds_endingOf pattern empty
  rw [Text.bytes_append] at inside ⊢
  have probed : base.bytes ++ [underscore] ∈ language pattern := inside
  refine ⟨bounds.loose free base.bytes probed below.bytes, fun ⟨asks, _⟩ => ?_⟩
  -- such a pattern ends in a literal, so that its words either all need the underscore or have none
  obtain ⟨front, char, rfl⟩ := endsInLiteral_of_asksForName asks
  rw [endingOf_append, endingOf, endingOf, Part.ending] at free bounds
  split at bounds
  · rename_i here
    exact free (if_pos here)
  · exact bounds base.bytes probed

end JavaRecords.Glob
