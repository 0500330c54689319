import JavaRecords.Glob.Matches
import Mathlib.Computability.Language

set_option autoImplicit false

namespace JavaRecords.Glob

def oneByte (accepts : UInt8 → Bool) : Language UInt8 :=
  {word | ∃ byte, accepts byte ∧ word = [byte]}

theorem mem_oneByte {accepts : UInt8 → Bool} {word : List UInt8} :
    word ∈ oneByte accepts ↔ ∃ byte, accepts byte = true ∧ word = [byte] := Iff.rfl

theorem oneByte_beq (byte : UInt8) : oneByte (· == byte) = {[byte]} := by
  ext word
  rw [mem_oneByte]
  constructor
  · rintro ⟨_, same, rfl⟩
    rw [eq_of_beq same]
    rfl
  · rintro rfl
    exact ⟨byte, beq_self_eq_true byte, rfl⟩

mutual

/-- The byte strings that a part stands for. -/
def Part.language : Part → Language UInt8
  | .literal char => {String.utf8EncodeChar char}
  | .any => oneByte fun _ => true
  | .many => ⊤
  | .leadingDirectories => 1 + ⊤ * {[slash]}
  | .descendants => {[slash]} * ⊤
  | .innerDirectories => {[slash]} * (1 + ⊤ * {[slash]})
  | .oneOf members => oneByte members.contains
  | .group branches => if branchesVoid branches then 1 else branchesLanguage branches

/-- The byte strings that a sequence of parts stands for. -/
def language : List Part → Language UInt8
  | [] => 1
  | part :: parts => part.language * language parts

/-- The byte strings that the branches of a group stand for. -/
def branchesLanguage : List (List Part) → Language UInt8
  | [] => 0
  | branch :: branches =>
      if partsVoid branch then branchesLanguage branches
      else language branch + branchesLanguage branches

end

def within (path : List UInt8) (words : Language UInt8) : Language UInt8 :=
  {front | front ∈ words ∧ front <+: path}

def Places.reached (path : List UInt8) (places : Places) : Language UInt8 :=
  {front | places[front.length]? = some true ∧ front <+: path}

theorem mem_within {path front : List UInt8} {words : Language UInt8} :
    front ∈ within path words ↔ front ∈ words ∧ front <+: path := Iff.rfl

theorem Places.mem_reached {path front : List UInt8} {places : Places} :
    front ∈ places.reached path ↔ places[front.length]? = some true ∧ front <+: path := Iff.rfl

theorem Places.reached_start (path : List UInt8) : (Places.start path).reached path = 1 := by
  ext front
  rw [Places.mem_reached, Language.mem_one]
  constructor
  · rintro ⟨marked, -⟩
    cases front with
    | nil => rfl
    | cons byte front =>
        simp only [Places.start, List.length_cons, List.getElem?_cons_succ, List.getElem?_map,
          Option.map_eq_some_iff, Bool.false_eq_true, and_false, exists_false] at marked
  · rintro rfl
    exact ⟨rfl, List.nil_prefix⟩

/-- A word of a product that a path starts with begins with a word that the path starts with. -/
theorem within_mul (path : List UInt8) (left right : Language UInt8) :
    within path (within path left * right) = within path (left * right) := by
  ext word
  simp only [mem_within, Language.mem_mul]
  constructor
  · rintro ⟨⟨front, ⟨inLeft, -⟩, back, inRight, rfl⟩, inside⟩
    exact ⟨⟨front, inLeft, back, inRight, rfl⟩, inside⟩
  · rintro ⟨⟨front, inLeft, back, inRight, rfl⟩, inside⟩
    exact ⟨⟨front, ⟨inLeft, (List.prefix_append front back).trans inside⟩, back, inRight, rfl⟩,
      inside⟩

/-- The places `next` come from `places` by the words of a language. -/
structure Places.Leads (path : List UInt8) (words : Language UInt8) (places next : Places) :
    Prop where
  whole : next.length = path.length + 1
  reached : next.reached path = within path (places.reached path * words)

namespace Places.Leads

variable {path : List UInt8} {places next last : Places} {words others : Language UInt8}

theorem refl (whole : places.length = path.length + 1) : Places.Leads path 1 places places where
  whole := whole
  reached := by
    rw [mul_one]
    ext front
    rw [mem_within, Places.mem_reached]
    exact ⟨fun inside => ⟨inside, inside.2⟩, fun inside => inside.1⟩

theorem trans (first : Places.Leads path words places next)
    (second : Places.Leads path others next last) :
    Places.Leads path (words * others) places last where
  whole := second.whole
  reached := by rw [second.reached, first.reached, within_mul, mul_assoc]

theorem union (left : Places.Leads path words places next)
    (right : Places.Leads path others places last) :
    Places.Leads path (words + others) places (next.union last) where
  whole := by
    rw [Places.union, List.length_zipWith, left.whole, right.whole, min_self]
  reached := by
    have split : (next.union last).reached path = next.reached path + last.reached path := by
      ext front
      simp only [Places.mem_reached, Language.mem_add, ← or_and_right]
      refine and_congr_left fun inside => ?_
      have short : front.length < path.length + 1 := Nat.lt_succ_of_le inside.length_le
      rw [Places.union, List.getElem?_zipWith, List.getElem?_eq_getElem (left.whole ▸ short),
        List.getElem?_eq_getElem (right.whole ▸ short)]
      simp only [Option.some.injEq, Bool.or_eq_true]
    rw [split, left.reached, right.reached, mul_add]
    ext front
    simp only [mem_within, Language.mem_add, or_and_right]

theorem clear (whole : places.length = path.length + 1) :
    Places.Leads path 0 places places.clear where
  whole := by rw [Places.clear, List.length_map, whole]
  reached := by
    rw [mul_zero]
    ext front
    simp only [Places.mem_reached, Places.clear, List.getElem?_map, Option.map_eq_some_iff,
      mem_within, Language.notMem_zero, Bool.false_eq_true, and_false, exists_false, false_and]

theorem step (accepts : UInt8 → Bool) (whole : places.length = path.length + 1) :
    Places.Leads path (oneByte accepts) places (places.step accepts path) where
  whole := Places.length_step accepts path places whole
  reached := by
    ext front
    rw [mem_within, Language.mem_mul, Places.mem_reached]
    refine and_congr_left fun inside => ?_
    cases front using List.reverseRecOn with
    | nil =>
        simp only [Places.step, List.length_nil, List.getElem?_cons_zero, Option.some.injEq,
          Bool.false_eq_true, false_iff]
        rintro ⟨before, -, word, ⟨byte, -, rfl⟩, empty⟩
        exact List.append_ne_nil_of_right_ne_nil before (List.cons_ne_nil byte []) empty
    | append_singleton before byte =>
        have around : before <+: path := (List.prefix_append before [byte]).trans inside
        have here : path[before.length]? = some byte := by
          obtain ⟨after, rfl⟩ := inside
          rw [List.append_assoc, List.getElem?_append_right le_rfl, Nat.sub_self]
          rfl
        have short : before.length < places.length := whole ▸ Nat.lt_succ_of_le around.length_le
        simp only [Places.step, List.length_append, List.length_singleton,
          List.getElem?_cons_succ, List.getElem?_zipWith, here,
          List.getElem?_eq_getElem short, Option.some.injEq, Bool.and_eq_true]
        constructor
        · rintro ⟨marked, accepted⟩
          exact ⟨before, ⟨(List.getElem?_eq_getElem short).trans (congrArg some marked), around⟩,
            [byte], ⟨byte, accepted, rfl⟩, rfl⟩
        · rintro ⟨other, ⟨marked, -⟩, word, ⟨last, accepted, rfl⟩, same⟩
          obtain ⟨rfl, rfl⟩ := List.append_singleton_inj.mp same
          exact ⟨Option.some.inj ((List.getElem?_eq_getElem short).symm.trans marked), accepted⟩

end Places.Leads

/-- A place is on from a set if it is one of its members or comes after one. -/
theorem Places.onward_marked (before : Bool) (places : Places) (n : Nat) :
    (places.onward before)[n]? = some true ↔
      n < places.length ∧ (before = true ∨ ∃ m ≤ n, places[m]? = some true) := by
  induction places generalizing before n with
  | nil => simp only [Places.onward, List.getElem?_nil, reduceCtorEq, List.length_nil,
      Nat.not_lt_zero, false_and]
  | cons place places ih =>
      cases n with
      | zero =>
          simp only [Places.onward, List.getElem?_cons_zero, Option.some.injEq, Bool.or_eq_true,
            List.length_cons, Nat.zero_lt_succ, true_and, Nat.le_zero, exists_eq_left]
      | succ n =>
          rw [Places.onward, List.getElem?_cons_succ, ih, List.length_cons, Nat.succ_lt_succ_iff,
            Bool.or_eq_true, or_assoc]
          refine and_congr_right fun _ => or_congr_right ⟨?_, ?_⟩
          · rintro (rfl | ⟨m, le, marked⟩)
            · exact ⟨0, Nat.zero_le _, rfl⟩
            · exact ⟨m + 1, Nat.succ_le_succ le, marked⟩
          · rintro ⟨m, le, marked⟩
            cases m with
            | zero => exact .inl (Option.some.inj marked)
            | succ m => exact .inr ⟨m, Nat.le_of_succ_le_succ le, marked⟩

namespace Places.Leads

variable {path : List UInt8} {places : Places}

theorem onward (whole : places.length = path.length + 1) :
    Places.Leads path ⊤ places (places.onward false) where
  whole := by rw [Places.length_onward, whole]
  reached := by
    ext front
    rw [mem_within, Language.mem_mul, Places.mem_reached]
    refine and_congr_left fun inside => ?_
    rw [Places.onward_marked, whole]
    constructor
    · rintro ⟨-, impossible | ⟨m, le, marked⟩⟩
      · exact absurd impossible Bool.false_ne_true
      · refine ⟨front.take m, ⟨?_, (List.take_prefix m front).trans inside⟩, front.drop m, trivial,
          List.take_append_drop m front⟩
        rwa [List.length_take_of_le le]
    · rintro ⟨before, ⟨marked, -⟩, word, -, rfl⟩
      exact ⟨Nat.lt_succ_of_le inside.length_le, .inr ⟨before.length,
        (List.prefix_append before word).length_le, marked⟩⟩

theorem slash (whole : places.length = path.length + 1) :
    Places.Leads path {[Glob.slash]} places (places.step (· == Glob.slash) path) := by
  rw [← oneByte_beq]
  exact step _ whole

theorem directories (whole : places.length = path.length + 1) :
    Places.Leads path (1 + ⊤ * {[Glob.slash]}) places (places.directories path) :=
  (refl whole).union ((onward whole).trans (slash (onward whole).whole))

theorem literal (bytes : List UInt8) (whole : places.length = path.length + 1) :
    Places.Leads path {bytes} places
      (bytes.foldl (fun places byte => places.step (· == byte) path) places) := by
  induction bytes generalizing places with
  | nil => exact refl whole
  | cons byte bytes ih =>
      have first : Places.Leads path _ places _ := step (· == byte) whole
      have product : ({byte :: bytes} : Language UInt8) = {[byte]} * {bytes} := by
        ext word
        rw [Language.mem_mul]
        constructor
        · rintro rfl
          exact ⟨[byte], rfl, bytes, rfl, rfl⟩
        · rintro ⟨_, rfl, _, rfl, rfl⟩
          rfl
      rw [product, ← oneByte_beq byte]
      exact first.trans (ih first.whole)

end Places.Leads

section Parts

variable {path : List UInt8}

mutual

theorem Part.leads (part : Part) {places : Places}
    (whole : places.length = path.length + 1) :
    Places.Leads path part.language places (part.ends path places) := by
  cases part with
  | literal char =>
      rw [Part.language, Part.ends]
      exact .literal _ whole
  | any =>
      rw [Part.language, Part.ends]
      exact .step _ whole
  | many =>
      rw [Part.language, Part.ends]
      exact .onward whole
  | leadingDirectories =>
      rw [Part.language, Part.ends]
      exact .directories whole
  | descendants =>
      rw [Part.language, Part.ends]
      exact (Places.Leads.slash whole).trans (.onward (Places.Leads.slash whole).whole)
  | innerDirectories =>
      rw [Part.language, Part.ends]
      exact (Places.Leads.slash whole).trans (.directories (Places.Leads.slash whole).whole)
  | oneOf members =>
      rw [Part.language, Part.ends]
      exact .step members.contains whole
  | group branches =>
      rw [Part.language, Part.ends]
      split
      · exact .refl whole
      · exact branches_lead branches whole

theorem parts_lead (parts : List Part) {places : Places}
    (whole : places.length = path.length + 1) :
    Places.Leads path (language parts) places (partEnds path places parts) := by
  cases parts with
  | nil =>
      rw [language, partEnds]
      exact .refl whole
  | cons part parts =>
      rw [language, partEnds]
      have first := part.leads whole
      exact first.trans (parts_lead parts first.whole)

theorem branches_lead (branches : List (List Part)) {places : Places}
    (whole : places.length = path.length + 1) :
    Places.Leads path (branchesLanguage branches) places (branchEnds path places branches) := by
  cases branches with
  | nil =>
      rw [branchesLanguage, branchEnds]
      exact .clear whole
  | cons branch branches =>
      rw [branchesLanguage, branchEnds]
      split
      · exact branches_lead branches whole
      · exact (parts_lead branch whole).union (branches_lead branches whole)

end

end Parts

/-- A path is matched if and only if its bytes are a word of the pattern, except that a pattern that
asks for a file by its name never matches a directory above. Two stars alone match every path. -/
theorem isMatch_iff (pattern : List Part) (path : Text) :
    isMatch pattern path = true ↔
      pattern = [.leadingDirectories] ∨
        path.bytes ∈ language pattern ∧
          ¬(asksForName pattern = true ∧ endsInParent path = true) := by
  have ends := parts_lead pattern (Places.length_start path.bytes)
  have last : (partEnds path.bytes (.start path.bytes) pattern).getLast? = some true ↔
      path.bytes ∈ language pattern := by
    have reached : path.bytes ∈ (partEnds path.bytes (.start path.bytes) pattern).reached
        path.bytes ↔ path.bytes ∈ language pattern := by
      rw [ends.reached, Places.reached_start, one_mul, mem_within]
      exact and_iff_left List.prefix_rfl
    rw [← reached, Places.mem_reached, List.getLast?_eq_getElem?, ends.whole]
    exact (and_iff_left List.prefix_rfl).symm
  unfold isMatch
  split
  · simp only [true_or]
  · rename_i other
    have plain : pattern ≠ [.leadingDirectories] := other
    simp only [plain, false_or, Bool.and_eq_true, beq_iff_eq, last, Bool.not_eq_true',
      Bool.and_eq_false_iff, not_and_or, Bool.not_eq_true]

end JavaRecords.Glob
