import JavaRecords.Parse.Member
import JavaRecords.Proofs.Indexed.Statements
import JavaRecords.Proofs.Parse.Member

set_option autoImplicit false

namespace JavaRecords.Indexed

open Code (MemberForm)

namespace Tape

variable (tape : Tape)

/-- Takes pairs of square brackets off the end of a type and a name that start at the place `low`
and end with the token `i`. Gives the number of pairs and the last token that is left. -/
def stripDims (low i : Nat) : Run (Nat × Nat) :=
  if low + 1 < i then do
    if ← also (tape.isPunct i ']') ((sub i 1).map (tape.isPunct · '[')) then
      let left ← sub i 2
      if _ : left < i then
        let (dims, name) ← stripDims low left
        return (dims + 1, name)
      else stuck
    else return (0, i)
  else return (0, i)
termination_by i

/-- The parts of parameters from the place `k` on and before `limit`, as pairs of places. `start` is
where the part under way starts. -/
def segmentsFrom (limit depth start k : Nat) : List (Nat × Nat) :=
  if _ : k < limit then
    if tape.opensBracket k || tape.isPunct k '<' then segmentsFrom limit (depth + 1) start (k + 1)
    else if tape.closesBracket k || tape.isPunct k '>' then
      segmentsFrom limit (depth - 1) start (k + 1)
    else if depth = 0 && tape.isPunct k ',' then
      (start, k) :: segmentsFrom limit depth (k + 1) (k + 1)
    else segmentsFrom limit depth start (k + 1)
  else [(start, limit)]
termination_by limit - k

/-- The name and the type of the parameter whose tokens are those from `start` on and before
`limit`. Its type starts at the place `first`, after the modifiers. -/
def namedType (start limit first name : Nat) : Run (Text × Text) :=
  if first < name && tape.isIdent name then do
    let word ← tape.text name
    let last ← sub name 1
    let ty ← tape.spanText first last
    return (word, ty)
  else do
    let last ← sub limit 1
    let ty ← tape.spanText start last
    return ([], ty)

/-- The parameter from the place `start` on and before `limit`. -/
def param (start limit : Nat) : Run Param := do
  let (modifiers, first) ← tape.modifiers limit start
  let last ← sub limit 1
  let (dims, name) ← tape.stripDims first last
  let (name, ty) ← tape.namedType start limit first name
  let ty := Code.withDims ty dims
  return ⟨name, ty, modifiers, ['.', '.', '.'].isSuffixOf ty⟩

/-- The parameters of some parts. A part without tokens is none. -/
def paramsOf : List (Nat × Nat) → Run (List Param)
  | [] => return []
  | (start, limit) :: rest =>
      if limit ≤ start then paramsOf rest
      else do
        let param ← tape.param start limit
        let params ← paramsOf rest
        return param :: params

/-- The parameters from the place `start` on and before `limit`. -/
def params (start limit : Nat) : Run (List Param) :=
  if limit ≤ start then return [] else tape.paramsOf (tape.segmentsFrom limit 0 start start)

/-- Where the type and the name of a member end that starts with the token `k`, and what it is. -/
def splitMember (limit angles k : Nat) : Run (Option (MemberForm × Nat)) :=
  if _ : k < limit then
    if tape.isPunct k '<' then splitMember limit (angles + 1) (k + 1)
    else if tape.isPunct k '>' then splitMember limit (angles - 1) (k + 1)
    else if angles ≠ 0 then splitMember limit angles (k + 1)
    else if tape.isPunct k '(' then return some (.method, k)
    else if tape.isPunct k ';' || tape.isPunct k ',' then return some (.field, k)
    else do
      if (← tape.assignAt k).isSome then return some (.field, k)
      else if tape.isPunct k '{' then return none
      else splitMember limit angles (k + 1)
  else return none
termination_by limit - k

def opensArguments (k : Nat) : Run Bool :=
  if tape.isPunct k '<' && 0 < k then do
    let previous ← sub k 1
    return tape.isIdent previous || tape.isPunct previous '.'
  else return false

/-- The places of the commas and semicolons between the variables of a declaration from the token
`k` on. -/
def separatorsFrom (limit depth angles k : Nat) : Run (List Nat) :=
  if _ : k < limit then
    if tape.opensBracket k then separatorsFrom limit (depth + 1) angles (k + 1)
    else if tape.closesBracket k then separatorsFrom limit (depth - 1) angles (k + 1)
    else if depth ≠ 0 then separatorsFrom limit depth angles (k + 1)
    else if tape.isPunct k ';' then do
      let rest ← separatorsFrom limit depth 0 (k + 1)
      return k :: rest
    else do
      if ← tape.opensArguments k then separatorsFrom limit depth (angles + 1) (k + 1)
      else if ← also (tape.isPunct k '>' && 0 < angles) ((tape.arrowAt k).map not) then
        separatorsFrom limit depth (angles - 1) (k + 1)
      else if angles = 0 && tape.isPunct k ',' then do
        let rest ← separatorsFrom limit depth angles (k + 1)
        return k :: rest
      else separatorsFrom limit depth angles (k + 1)
  else return []
termination_by limit - k

/-- The initial value of the first variable of a declaration before `limit`, whose type and name end
before the place `stop`. -/
def initializer (stop limit : Nat) (separators : List Nat) : Run (Option Text) :=
  if tape.isPunct stop '=' then
    let limit := separators.head?.getD limit
    if stop + 1 < limit then do
      let last ← sub limit 1
      let text ← tape.spanText (stop + 1) last
      return some text
    else return none
  else return none

/-- The field that is declared from the place `first` on and before `limit`, whose type and name end
before the place `stop`. -/
def field (first stop limit : Nat) (modifiers : Modifiers) (position : Nat) (source : Excerpt) :
    Run (Option FieldDecl) := do
  let (dims, name) ← tape.stripDims first (stop - 1)
  if name ≤ first || !tape.isIdent name then return none
  else do
    let last ← sub name 1
    let ty ← tape.spanText first last
    let separators ← tape.separatorsFrom limit 0 0 stop
    let initializer ← tape.initializer stop limit separators
    let word ← tape.text name
    return some
      { name := word
        ty := Code.withDims ty dims
        modifiers
        position
        initializer
        declarators := 1 + (separators.filter (tape.isPunct · ',')).length
        source }

end Tape

def prepend (front : List CodeToken) : List (List CodeToken) → List (List CodeToken)
  | [] => [front]
  | part :: parts => (front ++ part) :: parts

theorem prepend_concat (front : List CodeToken) (code : CodeToken) (parts : List (List CodeToken)) :
    prepend (front ++ [code]) parts = prepend front (prepend [code] parts) := by
  cases parts <;> simp [prepend]

theorem splitParams_cons (depth : Nat) (code : CodeToken) (rest : List CodeToken) :
    Code.splitParams depth (code :: rest) =
      if Code.opensBracket code || code.isPunct '<' then
        prepend [code] (Code.splitParams (depth + 1) rest)
      else if Code.closesBracket code || code.isPunct '>' then
        prepend [code] (Code.splitParams (depth - 1) rest)
      else if depth = 0 && code.isPunct ',' then [] :: Code.splitParams depth rest
      else prepend [code] (Code.splitParams depth rest) := by
  rw [Code.splitParams]
  rfl

theorem prepend_nil (depth : Nat) (code : List CodeToken) :
    prepend [] (Code.splitParams depth code) = Code.splitParams depth code := by
  cases parts : Code.splitParams depth code with
  | cons part parts => rfl
  | nil =>
      -- A part is under way from the start on.
      have push : ∀ (code : CodeToken) parts, prepend [code] parts ≠ [] := by
        intro code parts
        cases parts <;> simp [prepend]
      cases code with
      | nil => cases parts
      | cons code rest =>
          rw [splitParams_cons] at parts
          repeat' split at parts
          · exact absurd parts (push _ _)
          · exact absurd parts (push _ _)
          · cases parts
          · exact absurd parts (push _ _)

/-- The type and the name of a method end at a parenthesis, and those of a field at a semicolon, a
comma or an equals sign. -/
theorem stop_of_splitMember? {angles : Nat} {code : List CodeToken} {split : Code.MemberSplit}
    (marked : ∀ token ∈ code, token.Marked) (found : Code.splitMember? angles code = some split) :
    (split.form = .method ∧ split.stop.isPunct '(' = true) ∨
      (split.form = .field ∧ ∃ c ∈ [';', ',', '='], split.stop.isPunct c = true) := by
  induction code generalizing angles split with
  | nil => cases found
  | cons first rest ih =>
      have onward : ∀ angles, (Code.splitMember? angles rest).map (fun inner : Code.MemberSplit =>
          { inner with before := first :: inner.before }) = some split →
          (split.form = .method ∧ split.stop.isPunct '(' = true) ∨
            (split.form = .field ∧ ∃ c ∈ [';', ',', '='], split.stop.isPunct c = true) := by
        intro angles onward
        obtain ⟨inner, isInner, rfl⟩ := Option.map_eq_some_iff.mp onward
        have stops := ih (fun token listed => marked token (List.mem_cons_of_mem _ listed)) isInner
        exact stops
      rw [Code.splitMember?] at found
      split at found
      · exact onward _ found
      split at found
      · exact onward _ found
      split at found
      · exact onward _ found
      split at found
      · rename_i isParen
        cases found
        exact .inl ⟨rfl, isParen⟩
      split at found
      · rename_i stops
        cases found
        refine .inr ⟨rfl, ?_⟩
        simp only [Bool.or_eq_true] at stops
        obtain (semicolon | comma) | assign := stops
        · exact ⟨';', by simp, semicolon⟩
        · exact ⟨',', by simp, comma⟩
        · exact ⟨'=', by simp, marked first List.mem_cons_self assign⟩
      split at found
      · cases found
      · exact onward _ found

namespace Tape.Holds

variable {tape : Tape} {all part rest front : List CodeToken} {first : CodeToken} {i j k : Nat}
  (holds : tape.Holds all)
include holds

theorem opensBracket_eq (here : all[k]? = some first) :
    tape.opensBracket k = Code.opensBracket first := by
  simp only [Tape.opensBracket, holds.isPunct_eq here, Code.opensBracket]

theorem closesBracket_eq (here : all[k]? = some first) :
    tape.closesBracket k = Code.closesBracket first := by
  simp only [Tape.closesBracket, holds.isPunct_eq here, Code.closesBracket]

omit holds in
/-- The last two tokens of a part, and what stands before them. -/
theorem exists_pair {left right token : CodeToken} {rest : List CodeToken}
    (stretch : Stretch all i ((token :: rest).reverse ++ [left, right]) (k + 1)) :
    k = i + rest.length + 2 ∧ Stretch all i (token :: rest).reverse (k - 2 + 1) ∧
      all[k - 1]? = some left ∧ all[k]? = some right := by
  have size := stretch.length
  rw [List.length_append, List.length_reverse] at size
  simp only [List.length_cons, List.length_nil] at size
  have pairs := stretch.append.2
  have isRight := pairs.tail.head
  have isLeft := pairs.head
  have inner := stretch.append.1
  rw [List.length_reverse, List.length_cons] at isRight isLeft inner
  rw [show i + (rest.length + 1) = k - 2 + 1 by omega] at inner
  rw [show i + (rest.length + 1) = k - 1 by omega] at isLeft
  rw [show i + (rest.length + 1) + 1 = k by omega] at isRight
  exact ⟨by omega, inner, isLeft, isRight⟩

/-- The pairs of brackets after a name are those at the end of the part there. -/
theorem stripDims_eq (stretch : Stretch all i part (k + 1)) (nonempty : part ≠ []) :
    ∃ dims front back, part = front ++ back ∧ front ≠ [] ∧
      Code.stripDims part.reverse = (dims, front.reverse) ∧
      tape.stripDims i k = .ok (dims, i + front.length - 1) := by
  generalize isReversed : part.reverse = reversed
  have whole := part.reverse_reverse
  rw [isReversed] at whole
  fun_induction Code.stripDims reversed generalizing part k with
  | case1 right left token rest pair dims remaining strip ih =>
      have split : part = (token :: rest).reverse ++ [left, right] := by
        rw [← whole]
        simp
      rw [split] at stretch
      obtain ⟨size, inner, isLeft, isRight⟩ := exists_pair stretch
      obtain ⟨more, front, back, same, some, stripped, found⟩ :=
        ih inner (by simp) (by simp) (by simp)
      rw [strip, Prod.mk.injEq] at stripped
      obtain ⟨rfl, isFront⟩ := stripped
      refine ⟨dims + 1, front, back ++ [left, right], by rw [split, same]; simp, some,
        by rw [isFront], ?_⟩
      rw [Tape.stripDims, if_pos (by omega), holds.isPunct_eq isRight,
        sub_of_le (show 1 ≤ k by omega), map_ok, holds.isPunct_eq isLeft, also_ok, ok_bind,
        if_pos pair, sub_of_le (show 2 ≤ k by omega), ok_bind, dif_pos (by omega), found]
      rfl
  | case2 right left token rest unpaired =>
      have split : part = (token :: rest).reverse ++ [left, right] := by
        rw [← whole]
        simp
      refine ⟨0, part, [], by simp, nonempty, by rw [isReversed], ?_⟩
      rw [split] at stretch
      obtain ⟨size, _, isLeft, isRight⟩ := exists_pair stretch
      rw [Tape.stripDims, if_pos (by omega), holds.isPunct_eq isRight,
        sub_of_le (show 1 ≤ k by omega), map_ok, holds.isPunct_eq isLeft, also_ok, ok_bind,
        if_neg unpaired, pure_eq_ok, split]
      simp only [List.length_append, List.length_reverse, List.length_cons, List.length_nil]
      congr 2
  | case3 reversed short =>
      have size := stretch.length
      have few : part.length ≤ 2 := by
        rw [← whole, List.length_reverse]
        rcases reversed with _ | ⟨right, _ | ⟨left, _ | ⟨token, rest⟩⟩⟩
        · simp
        · simp
        · simp
        · exact absurd rfl (short right left token rest)
      refine ⟨0, part, [], by simp, nonempty, by rw [isReversed], ?_⟩
      rw [Tape.stripDims, if_neg (by omega), pure_eq_ok]
      congr 2
      omega

/-- The parts of parameters are those that the tokens there are cut into. -/
theorem segmentsFrom_eq (fence : ∀ next, all[j]? = some next → ∃ c ∈ fences, next.isPunct c = true)
    (depth : Nat) (front : List CodeToken) (stretch : Stretch all i (front ++ part) j) :
    List.Forall₂ (fun places part => Guarded all places.1 part places.2)
      (tape.segmentsFrom j depth i (i + front.length))
      (prepend front (Code.splitParams depth part)) := by
  induction part generalizing i front depth with
  | nil =>
      rw [Tape.segmentsFrom, dif_neg (by simp [stretch.length])]
      exact .cons ⟨stretch, .inr fence⟩ .nil
  | cons code rest ih =>
      have here := stretch.append.2.head
      have onward : ∀ depth, List.Forall₂ (fun places part => Guarded all places.1 part places.2)
          (tape.segmentsFrom j depth i (i + front.length + 1))
          (prepend front (prepend [code] (Code.splitParams depth rest))) := by
        intro depth
        have next := ih depth (front ++ [code]) (by simpa using stretch)
        rwa [List.length_append, List.length_singleton, prepend_concat] at next
      rw [Tape.segmentsFrom, dif_pos stretch.append.2.lt, splitParams_cons,
        holds.opensBracket_eq here,
        holds.closesBracket_eq here, holds.isPunct_eq here, holds.isPunct_eq here,
        holds.isPunct_eq here]
      split
      · exact onward _
      split
      · exact onward _
      split
      · rename_i comma
        have next := ih depth [] stretch.append.2.tail
        rw [prepend_nil, List.length_nil, Nat.add_zero] at next
        refine .cons ⟨?_, .inr fun next found => ?_⟩ next
        · rw [List.append_nil]
          exact stretch.append.1
        · obtain rfl : code = next := Option.some.inj (here.symm.trans found)
          exact ⟨',', by decide, (Bool.and_eq_true_iff.mp comma).2⟩
      · exact onward _

/-- What is left of a type and a name in front of pairs of brackets. -/
theorem named_cases (stretch : Stretch all i front (k + 1)) (nonempty : front ≠ []) :
    ((∃ name, front.reverse = [name]) ∧ k = i) ∨
    ∃ name last rest, front.reverse = name :: last :: rest ∧ i < k ∧
      tape.isIdent k = name.isIdent ∧ tape.text k = .ok name.text ∧
      tape.spanText i (k - 1) = .ok (Code.text (last :: rest).reverse) := by
  have size := stretch.length
  have whole := front.reverse_reverse
  rcases reversed : front.reverse with _ | ⟨name, _ | ⟨last, rest⟩⟩
  · exact absurd (List.reverse_eq_nil_iff.mp reversed) nonempty
  · rw [reversed] at whole
    rw [← whole] at size
    exact .inl ⟨⟨name, rfl⟩, Nat.succ.inj size⟩
  · rw [reversed, List.reverse_cons] at whole
    rw [← whole] at stretch size
    simp only [List.length_append, List.length_reverse, List.length_cons, List.length_nil] at size
    have isName : all[k + 1 - 1]? = some name := stretch.last
    have ty := stretch.append.1
    rw [List.length_reverse, List.length_cons, show i + (rest.length + 1) = k by omega] at ty
    exact .inr ⟨name, last, rest, rfl, by omega, holds.isIdent_eq isName, holds.text_eq isName,
      holds.spanText_eq ty (by simp)⟩

/-- The parameter of a part is that of its tokens. -/
theorem param_eq (guarded : Guarded all i part j) (nonempty : part ≠ []) :
    tape.param i j = lift (Code.param part) := by
  have inside := guarded.stretch.lt_of_ne_nil nonempty
  have whole := holds.spanText_eq guarded.stretch nonempty
  rw [Tape.param, holds.modifiers_eq guarded, Code.param]
  cases read : Code.modifiers part with
  | error error => rfl
  | ok run =>
      have behind := (holds.guarded_of_modifiers guarded read).stretch
      simp only [Except.map, lift_ok, ok_bind, sub_of_le (show 1 ≤ j by omega)]
      generalize i + run.taken.length = start at behind
      have size := behind.length
      by_cases rest : run.rest = []
      · rw [rest, List.length_nil, Nat.add_zero] at size
        have short : ¬(start < j - 1 && tape.isIdent (j - 1)) = true := by
          simp
          omega
        rw [Tape.stripDims, if_neg (by omega), pure_eq_ok, ok_bind, Tape.namedType, if_neg short,
          sub_of_le (by omega), ok_bind, whole, rest]
        rfl
      · rw [← Nat.sub_add_cancel (show 1 ≤ j by omega)] at behind
        obtain ⟨dims, front, back, split, some, stripped, found⟩ := holds.stripDims_eq behind rest
        have positive := List.length_pos_iff.mpr some
        rw [split] at behind
        have named := behind.append.1
        rw [show start + front.length = start + front.length - 1 + 1 by omega] at named
        rw [found, ok_bind, stripped]
        generalize start + front.length - 1 = place at named
        obtain ⟨⟨name, single⟩, same⟩ | ⟨name, last, rest, several, after, ident, word, ty⟩ :=
          holds.named_cases named some
        · rw [Tape.namedType, if_neg (by simp [same]), sub_of_le (by omega), ok_bind, whole, single]
          rfl
        · rw [Tape.namedType, ident, word, sub_of_le (show 1 ≤ place by omega), ok_bind,
            ok_bind, ty, sub_of_le (show 1 ≤ j by omega), several]
          cases isName : name.isIdent with
          | false => simp [isName, whole]
          | true => simp [isName, after]

theorem paramsOf_eq {places : List (Nat × Nat)} {parts : List (List CodeToken)}
    (guarded : List.Forall₂ (fun places part => Guarded all places.1 part places.2) places parts) :
    tape.paramsOf places =
      lift ((parts.filter fun part => !part.isEmpty).mapM Code.param) := by
  induction guarded with
  | nil => rfl
  | @cons place part places parts first _ ih =>
      obtain ⟨start, limit⟩ := place
      rw [Tape.paramsOf, ih]
      cases part with
      | nil =>
          rw [if_pos first.stretch.eq_of_nil.le]
          rfl
      | cons code rest =>
          rw [if_neg (not_le.mpr first.stretch.lt), holds.param_eq first (List.cons_ne_nil _ _),
            List.filter_cons_of_pos (by rfl), List.mapM_cons]
          cases Code.param (code :: rest) with
          | error error => rfl
          | ok param => cases (parts.filter fun part => !part.isEmpty).mapM Code.param <;> rfl

/-- The parameters of a part are those of its tokens. -/
theorem params_eq (fence : ∀ next, all[j]? = some next → ∃ c ∈ fences, next.isPunct c = true)
    (stretch : Stretch all i part j) : tape.params i j = lift (Code.params part) := by
  rw [Tape.params, Code.params]
  cases part with
  | nil =>
      rw [if_pos stretch.eq_of_nil.le]
      rfl
  | cons code rest =>
      have parts := holds.segmentsFrom_eq fence 0 [] stretch
      rw [prepend_nil, List.length_nil, Nat.add_zero] at parts
      rw [if_neg (not_le.mpr stretch.lt), holds.paramsOf_eq parts]

/-- The type and the name of a member end where they do in its tokens. -/
theorem splitMember_eq (angles : Nat) (stretch : Stretch all k part j) :
    tape.splitMember j angles k = .ok ((Code.splitMember? angles part).map fun split =>
      (split.form, k + split.before.length)) := by
  induction part generalizing k angles with
  | nil =>
      rw [Tape.splitMember, dif_neg (by simp [stretch.eq_of_nil])]
      rfl
  | cons code rest ih =>
      have here := stretch.head
      have onward : ∀ angles, tape.splitMember j angles (k + 1) =
          .ok (((Code.splitMember? angles rest).map fun split =>
            { split with before := code :: split.before }).map fun split =>
              (split.form, k + split.before.length)) := by
        intro angles
        rw [ih angles stretch.tail]
        cases Code.splitMember? angles rest with
        | none => rfl
        | some split =>
            simp only [Option.map_some, List.length_cons]
            congr 3
            omega
      rw [Tape.splitMember, dif_pos stretch.lt, Code.splitMember?, holds.assignAt_eq here, ok_bind,
        Option.isSome_map]
      simp only [holds.isPunct_eq here]
      split
      · exact onward _
      split
      · exact onward _
      split
      · exact onward _
      split
      · rfl
      cases code.isPunct ';' || code.isPunct ',' with
      | true => rfl
      | false =>
          rw [Bool.false_or, if_neg Bool.false_ne_true]
          split
          · rfl
          split
          · rfl
          · exact onward _

theorem opensArguments_eq {previous : CodeToken} (here : all[k + 1]? = some first)
    (before : all[k]? = some previous) : tape.opensArguments (k + 1) =
      .ok (first.isPunct '<' && (previous.isIdent || previous.isPunct '.')) := by
  rw [Tape.opensArguments, holds.isPunct_eq here, sub_of_le (by omega), ok_bind, Nat.add_sub_cancel,
    holds.isIdent_eq before, holds.isPunct_eq before]
  cases first.isPunct '<' <;> rfl

theorem separatorsFrom_eq {base : Nat} {previous : CodeToken} (depth angles index : Nat)
    (stretch : Stretch all (base + index + 1) part j)
    (before : all[base + index]? = some previous) :
    tape.separatorsFrom j depth angles (base + index + 1) =
        .ok ((Code.separators depth angles (index + 1) previous part).map fun entry =>
          base + entry.1) ∧
      ∀ entry ∈ Code.separators depth angles (index + 1) previous part,
        index < entry.1 ∧ base + entry.1 < j ∧ all[base + entry.1]? = some entry.2 := by
  induction part generalizing depth angles index previous with
  | nil =>
      rw [Tape.separatorsFrom, dif_neg (by simp [stretch.eq_of_nil])]
      exact ⟨rfl, fun _ absent => absurd absent List.not_mem_nil⟩
  | cons code rest ih =>
      have here := stretch.head
      have onward : ∀ depth angles, tape.separatorsFrom j depth angles (base + index + 1 + 1) =
          .ok ((Code.separators depth angles (index + 2) code rest).map fun entry =>
            base + entry.1) ∧
          ∀ entry ∈ Code.separators depth angles (index + 2) code rest,
            index < entry.1 ∧ base + entry.1 < j ∧ all[base + entry.1]? = some entry.2 := by
        intro depth angles
        obtain ⟨same, listed⟩ := ih depth angles (index + 1) stretch.tail here
        exact ⟨same, fun entry inside => ⟨by have := (listed entry inside).1; omega,
          (listed entry inside).2⟩⟩
      have found : ∀ depth angles, (do
          let rest ← tape.separatorsFrom j depth angles (base + index + 1 + 1)
          return (base + index + 1) :: rest) = (.ok (((index + 1, code) ::
            Code.separators depth angles (index + 2) code rest).map fun entry => base + entry.1) :
              Run (List Nat)) ∧
          ∀ entry ∈ (index + 1, code) :: Code.separators depth angles (index + 2) code rest,
            index < entry.1 ∧ base + entry.1 < j ∧ all[base + entry.1]? = some entry.2 := by
        intro depth angles
        obtain ⟨same, listed⟩ := onward depth angles
        refine ⟨by rw [same]; rfl, fun entry inside => ?_⟩
        obtain rfl | inside := List.mem_cons.mp inside
        · exact ⟨Nat.lt_succ_self _, stretch.lt, here⟩
        · exact listed entry inside
      rw [Tape.separatorsFrom, dif_pos stretch.lt, Code.separators, holds.opensBracket_eq here,
        holds.closesBracket_eq here, holds.opensArguments_eq here before, ok_bind,
        holds.arrowAt_eq here, map_ok, also_ok, ok_bind]
      simp only [holds.isPunct_eq here]
      split
      · exact onward _ _
      split
      · exact onward _ _
      split
      · exact onward _ _
      split
      · exact found _ _
      split
      · exact onward _ _
      split
      · exact onward _ _
      split
      · exact found _ _
      · exact onward _ _

/-- The separators of a declaration from the place `k` on, where its first name ends. -/
theorem fieldSeparators_eq {stop : CodeToken} {after : List CodeToken}
    (stretch : Stretch all k (stop :: after) j)
    (stops : ∃ c ∈ [';', ',', '='], stop.isPunct c = true) :
    tape.separatorsFrom j 0 0 k = .ok ((Code.fieldSeparators stop after).map fun entry =>
        k + entry.1) ∧
      ∀ entry ∈ Code.fieldSeparators stop after,
        k + entry.1 < j ∧ all[k + entry.1]? = some entry.2 := by
  have here := stretch.head
  have behind : Stretch all (k + 0 + 1) after j := stretch.tail
  obtain ⟨same, listed⟩ := holds.separatorsFrom_eq 0 0 0 behind here
  have others : ∀ entry ∈ Code.separators 0 0 1 stop after,
      k + entry.1 < j ∧ all[k + entry.1]? = some entry.2 := fun entry inside =>
        (listed entry inside).2
  have own : ∀ entry ∈ (0, stop) :: Code.separators 0 0 1 stop after,
      k + entry.1 < j ∧ all[k + entry.1]? = some entry.2 := by
    intro entry inside
    obtain rfl | inside := List.mem_cons.mp inside
    · exact ⟨stretch.lt, here⟩
    · exact others entry inside
  obtain ⟨c, isStop, punct⟩ := stops
  rw [Tape.separatorsFrom, dif_pos stretch.lt, holds.opensBracket_eq here,
    holds.closesBracket_eq here, Tape.opensArguments]
  simp only [holds.isPunct_eq here, Code.opensBracket, Code.closesBracket, Code.fieldSeparators,
    CodeToken.isPunct_of_isPunct punct]
  simp only [List.mem_cons, List.not_mem_nil, or_false] at isStop
  obtain rfl | rfl | rfl := isStop
  · refine ⟨?_, own⟩
    rw [Nat.add_zero] at same
    simp [same]
  · refine ⟨?_, own⟩
    rw [Nat.add_zero] at same
    simp [same]
  · refine ⟨?_, others⟩
    rw [Nat.add_zero] at same
    simp [same]

theorem initializer_eq {split : Code.MemberSplit}
    (stretch : Stretch all k (split.stop :: split.after) j) : tape.initializer k j
      ((Code.fieldSeparators split.stop split.after).map fun entry => k + entry.1) =
        .ok (Code.fieldInitializer? split) := by
  rw [Tape.initializer, holds.isPunct_eq stretch.head, Code.fieldInitializer?]
  cases isAssign : split.stop.isPunct '=' with
  | false => rfl
  | true =>
      obtain ⟨-, listed⟩ := holds.fieldSeparators_eq stretch ⟨'=', by simp, isAssign⟩
      have behind := stretch.tail
      have size := behind.length
      simp only [if_true]
      rcases isSeparators : Code.fieldSeparators split.stop split.after with _
        | ⟨⟨index, comma⟩, others⟩
      · -- The value reaches to the end of the declaration.
        rcases isAfter : split.after with _ | ⟨first, rest⟩
        · rw [isAfter] at size
          simp [size]
        · have value := holds.spanText_eq behind (by simp [isAfter])
          rw [isAfter] at size value
          simp only [List.length_cons] at size
          simp [value, show k + 1 < j by omega, show 1 ≤ j by omega]
      · -- The value reaches to the first separator.
        have inside : k + index < j := (listed (index, comma) (by simp [isSeparators])).1
        have taken : (split.after.take (index - 1)).length = index - 1 := by
          rw [List.length_take]
          omega
        by_cases empty : index ≤ 1
        · simp [empty, show ¬k + 1 < k + index by omega]
        · rw [← List.take_append_drop (index - 1) split.after] at behind
          have front := behind.append.1
          rw [taken, show k + 1 + (index - 1) = k + index by omega] at front
          have some : split.after.take (index - 1) ≠ [] := by
            rw [← List.length_pos_iff]
            omega
          have value := holds.spanText_eq front some
          simp [value, some, show k + 1 < k + index by omega, show 1 ≤ k + index by omega]

theorem field_eq {split : Code.MemberSplit} (modifiers : Modifiers) (position : Nat)
    (source : Excerpt) (stretch : Stretch all i (split.before ++ split.stop :: split.after) j)
    (stops : ∃ c ∈ [';', ',', '='], split.stop.isPunct c = true) :
    tape.field i (i + split.before.length) j modifiers position source =
      .ok (Code.field? split modifiers position source) := by
  have before := stretch.append.1
  have behind := stretch.append.2
  obtain ⟨separators, listed⟩ := holds.fieldSeparators_eq behind stops
  have commas : ((Code.fieldSeparators split.stop split.after).map fun entry =>
      i + split.before.length + entry.1).filter (tape.isPunct · ',') =
        ((Code.fieldSeparators split.stop split.after).filter (·.2.isPunct ',')).map fun entry =>
          i + split.before.length + entry.1 := by
    rw [List.filter_map]
    congr 1
    exact List.filter_congr fun entry inside => holds.isPunct_eq (listed entry inside).2 _
  rw [Tape.field, Code.field?]
  by_cases nothing : split.before = []
  · rw [nothing, Tape.stripDims, if_neg (by simp; omega)]
    simp [Code.stripDims]
  · have positive := List.length_pos_iff.mpr nothing
    rw [← Nat.sub_add_cancel (show 1 ≤ i + split.before.length by omega)] at before
    obtain ⟨dims, front, back, same, some, stripped, found⟩ := holds.stripDims_eq before nothing
    have positive := List.length_pos_iff.mpr some
    rw [same] at before
    have named := before.append.1
    rw [show i + front.length = i + front.length - 1 + 1 by omega] at named
    rw [found, ok_bind, stripped]
    generalize i + front.length - 1 = place at named
    obtain ⟨⟨name, single⟩, place⟩ | ⟨name, last, rest, several, after, ident, word, ty⟩ :=
      holds.named_cases named some
    · rw [single]
      simp [place]
    · rw [several]
      cases isName : name.isIdent with
      | false => simp [isName, ident]
      | true =>
          simp only [ident, isName, not_le.mpr after, decide_false, Bool.not_true, Bool.or_false,
            Bool.false_eq_true, if_false, if_true, sub_of_le (show 1 ≤ place by omega), ok_bind, ty,
            separators, holds.initializer_eq behind, word, commas, List.length_map]
          rfl

end Tape.Holds

end JavaRecords.Indexed
