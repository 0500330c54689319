import JavaRecords.Parse.Modifiers
import JavaRecords.Proofs.Code.Operators
import JavaRecords.Proofs.Indexed.Run

set_option autoImplicit false

namespace JavaRecords.Indexed

open Code (flat)

/-- A source, its tokens without the comments, and its comments. -/
structure Tape where
  source : Text
  tokens : List Token
  comments : List Token

namespace Tape

variable (tape : Tape)

def token (i : Nat) : Run Token :=
  match tape.tokens[i]? with
  | some token => .ok token
  | none => .error (.fault (.index i))

def text (i : Nat) : Run Text := do
  let token ← tape.token i
  return token.text

def isPunct (i : Nat) (c : Char) : Bool := tape.tokens[i]?.any (·.isPunct c)

def isIdent (i : Nat) : Bool := tape.tokens[i]?.any Token.isIdent

def isNamed (i : Nat) (word : Text) : Bool := tape.tokens[i]?.any (·.isWord word)

def isWord (i : Nat) (word : String) : Bool := tape.isNamed i word.toList

/-- Whether no character stands between two tokens. -/
def touches (i j : Nat) : Run Bool := do
  let left ← tape.token i
  let right ← tape.token j
  return left.touches right

/-- The source from the start of one token to the end of another one. -/
def spanText (first last : Nat) : Run Text := do
  let left ← tape.token first
  let right ← tape.token last
  cut tape.source left.start right.stop

/-- The texts of the tokens from `i` on and before `j`, without what stands between them. -/
def joined (i j : Nat) : Run Text :=
  if _ : i < j then do
    let text ← tape.text i
    let rest ← joined (i + 1) j
    return text ++ rest
  else return []
termination_by j - i

/-- The place where `depth` brackets that are open at the place `i` are closed. -/
def closing? (left right : Char) (limit depth i : Nat) : Option Nat :=
  if _ : i < min limit tape.tokens.length then
    if tape.isPunct i left then closing? left right limit (depth + 1) (i + 1)
    else if tape.isPunct i right then
      if depth - 1 = 0 then some i else closing? left right limit (depth - 1) (i + 1)
    else closing? left right limit depth (i + 1)
  else none
termination_by limit - i

/-- The place before `limit` where the bracket at the place `opening` is closed. -/
def matching (opening : Nat) (left right : Char) (limit : Nat) : Run Nat :=
  match tape.closing? left right limit 0 opening with
  | some closing => return closing
  | none => do
      let token ← tape.token opening
      .error (.parse (.unbalanced left token.start))

end Tape

/-- The places from `i` on and before `j` hold a part of a list. -/
def Stretch {α : Type} (all : List α) (i : Nat) (part : List α) (j : Nat) : Prop :=
  ∃ before after, all = before ++ part ++ after ∧ before.length = i ∧ i + part.length = j

namespace Stretch

variable {α : Type} {all part left right : List α} {first : α} {i j k : Nat}

theorem whole (all : List α) : Stretch all 0 all all.length := ⟨[], [], by simp, rfl, by simp⟩

theorem length (stretch : Stretch all i part j) : j = i + part.length := by
  obtain ⟨_, _, _, _, same⟩ := stretch
  exact same.symm

theorem le_length (stretch : Stretch all i part j) : j ≤ all.length := by
  obtain ⟨before, after, rfl, rfl, rfl⟩ := stretch
  simp

theorem append (stretch : Stretch all i (left ++ right) j) :
    Stretch all i left (i + left.length) ∧ Stretch all (i + left.length) right j := by
  obtain ⟨before, after, rfl, rfl, rfl⟩ := stretch
  exact ⟨⟨before, right ++ after, by simp, rfl, rfl⟩,
    before ++ left, after, by simp, by simp, by simp [Nat.add_assoc]⟩

theorem tail (stretch : Stretch all i (first :: part) j) : Stretch all (i + 1) part j :=
  (append (show Stretch all i ([first] ++ part) j from stretch)).2

theorem lt (stretch : Stretch all i (first :: part) j) : i < j := by
  rw [stretch.length, List.length_cons]
  omega

theorem lt_of_ne_nil (stretch : Stretch all i part j) (nonempty : part ≠ []) : i < j := by
  have positive := List.length_pos_iff.mpr nonempty
  have size := stretch.length
  omega

theorem eq_of_nil (stretch : Stretch all i [] j) : j = i := stretch.length

theorem getElem? (stretch : Stretch all i part j) (inside : k < part.length) :
    all[i + k]? = part[k]? := by
  obtain ⟨before, after, rfl, rfl, rfl⟩ := stretch
  rw [List.append_assoc, List.getElem?_append_right (Nat.le_add_right _ _), Nat.add_sub_cancel_left,
    List.getElem?_append_left inside]

theorem head (stretch : Stretch all i (first :: part) j) : all[i]? = some first :=
  stretch.getElem? (k := 0) (by simp)

theorem last (stretch : Stretch all i (left ++ [first]) j) : all[j - 1]? = some first := by
  have found := stretch.append.2.head
  have size := stretch.length
  rw [List.length_append, List.length_singleton] at size
  rwa [show j - 1 = i + left.length by omega]

end Stretch

theorem map_push_inside (first : CodeToken) (i : Nat) (found : Option Enclosed) :
    (found.map fun enclosed => i + 1 + enclosed.inside.length) =
      (found.map (Enclosed.push first)).map fun enclosed => i + enclosed.inside.length := by
  cases found with
  | none => rfl
  | some enclosed =>
      simp only [Option.map_some, Enclosed.push, List.length_cons]
      congr 1
      omega

/-- A tape holds the code of a source. -/
structure Tape.Holds (tape : Tape) (all : List CodeToken) : Prop where
  tokens : tape.tokens = all.map CodeToken.token
  spelled : ∃ rest, tape.source = Token.spell (flat all) ++ rest
  placed : Token.Placed 0 (flat all)
  marks : Code.Marks [] [] all

namespace Tape.Holds

variable {tape : Tape} {all part rest : List CodeToken} {code first last : CodeToken} {i j : Nat}
  (holds : tape.Holds all)
include holds

theorem getElem? (i : Nat) : tape.tokens[i]? = (all[i]?).map CodeToken.token := by
  rw [holds.tokens, List.getElem?_map]

theorem token_eq (found : all[i]? = some code) : tape.token i = .ok code.token := by
  simp [Tape.token, holds.getElem?, found]

theorem text_eq (found : all[i]? = some code) : tape.text i = .ok code.text := by
  simp [Tape.text, holds.token_eq found, CodeToken.text]

theorem isPunct_eq (found : all[i]? = some code) (c : Char) :
    tape.isPunct i c = code.isPunct c := by
  simp [Tape.isPunct, holds.getElem?, found, CodeToken.isPunct]

theorem isIdent_eq (found : all[i]? = some code) : tape.isIdent i = code.isIdent := by
  simp [Tape.isIdent, holds.getElem?, found, CodeToken.isIdent]

theorem isWord_eq (found : all[i]? = some code) (word : String) :
    tape.isWord i word = code.isWord word := by
  simp [Tape.isWord, Tape.isNamed, holds.getElem?, found, CodeToken.isWord]

theorem length_tokens : tape.tokens.length = all.length := by rw [holds.tokens, List.length_map]

theorem start_first {before after : List CodeToken} (split : all = before ++ first :: after) :
    first.start = Text.byteSize (Token.spell (flat before) ++ first.lead) := by
  have placed := holds.placed
  rw [split, Code.flat_append, Code.flat_cons] at placed
  have here := (Token.placed_append.mp (Token.placed_append.mp placed).2).2
  have start := (Token.placed_cons.mp here).1
  simp only [CodeToken.start, CodeToken.lead, Text.byteSize_append] at *
  omega

theorem stop_last {before after : List CodeToken} (split : all = before ++ [last] ++ after) :
    last.stop = Text.byteSize (Token.spell (flat (before ++ [last]))) := by
  have start := holds.start_first (show all = before ++ last :: after by simpa using split)
  rw [CodeToken.stop, Token.stop, ← CodeToken.start, start]
  simp [CodeToken.lead, Nat.add_assoc]

/-- A part is written from its first to its last token. -/
theorem spanText_eq (stretch : Stretch all i part j) (nonempty : part ≠ []) :
    tape.spanText i (j - 1) = .ok (Code.text part) := by
  obtain ⟨first, rest, rfl⟩ := List.exists_cons_of_ne_nil nonempty
  obtain ⟨front, last, concat⟩ := (List.eq_nil_or_concat (first :: rest)).resolve_left nonempty
  rw [List.concat_eq_append] at concat
  have isFirst := stretch.head
  have isLast : all[j - 1]? = some last := (concat ▸ stretch).last
  obtain ⟨before, after, split, _, _⟩ := stretch
  obtain ⟨tail, spelled⟩ := holds.spelled
  have written : ∀ more, Token.spell (flat (before ++ (first :: rest) ++ more)) =
      Token.spell (flat before) ++ first.lead ++ Code.text (first :: rest)
        ++ Token.spell (flat more) := by
    intro more
    simp [Code.spell_flat, CodeToken.lead, CodeToken.text]
  have start := holds.start_first
    (show all = before ++ first :: (rest ++ after) by rw [split]; simp)
  have stop := holds.stop_last
    (show all = before ++ front ++ [last] ++ after by rw [split, concat]; simp)
  have whole := written []
  rw [concat, List.append_nil, ← List.append_assoc, ← concat, Code.flat_nil, Token.spell_nil,
    List.append_nil] at whole
  rw [whole, Text.byteSize_append, ← start] at stop
  rw [Tape.spanText, holds.token_eq isFirst, holds.token_eq isLast, ok_bind, ok_bind,
    spelled, split, written after, List.append_assoc _ _ tail]
  change cut _ first.start last.stop = _
  rw [stop, start]
  exact cut_append _ _ _

theorem joined_eq (stretch : Stretch all i part j) : tape.joined i j = .ok (Code.joined part) := by
  induction part generalizing i with
  | nil =>
      rw [Tape.joined, dif_neg (by simp [stretch.eq_of_nil])]
      rfl
  | cons first rest ih =>
      rw [Tape.joined, dif_pos stretch.lt, holds.text_eq stretch.head, ih stretch.tail]
      rfl

/-- One step of the search for a closing bracket. -/
theorem closing?_cons (left right : Char) (depth : Nat)
    (stretch : Stretch all i (first :: rest) j) :
    tape.closing? left right j depth i =
      if first.isPunct left then tape.closing? left right j (depth + 1) (i + 1)
      else if first.isPunct right then
        if depth - 1 = 0 then some i else tape.closing? left right j (depth - 1) (i + 1)
      else tape.closing? left right j depth (i + 1) := by
  have bounded : i < min j tape.tokens.length :=
    Nat.lt_min.mpr ⟨stretch.lt, holds.length_tokens ▸ lt_of_lt_of_le stretch.lt stretch.le_length⟩
  rw [Tape.closing?, dif_pos bounded, holds.isPunct_eq stretch.head, holds.isPunct_eq stretch.head]

theorem closing?_eq (left right : Char) (depth : Nat) (stretch : Stretch all i part j) :
    tape.closing? left right j (depth + 1) i =
      (Code.close? left right depth part).map fun enclosed => i + enclosed.inside.length := by
  fun_induction Code.close? left right depth part generalizing i with
  | case1 depth =>
      rw [Tape.closing?, dif_neg (by rw [stretch.eq_of_nil, Nat.lt_min]; omega)]
      rfl
  | case2 depth first rest opens ih =>
      rw [holds.closing?_cons _ _ _ stretch, if_pos opens, ih stretch.tail, map_push_inside]
  | case3 first rest opens closes =>
      rw [holds.closing?_cons _ _ _ stretch, if_neg opens, if_pos closes]
      rfl
  | case4 first rest opens closes depth ih =>
      rw [holds.closing?_cons _ _ _ stretch, if_neg opens, if_pos closes, Nat.add_sub_cancel,
        if_neg (Nat.succ_ne_zero depth)]
      rw [ih stretch.tail, map_push_inside]
  | case5 depth first rest opens closes ih =>
      rw [holds.closing?_cons _ _ _ stretch, if_neg opens, if_neg closes, ih stretch.tail,
        map_push_inside]

/-- The partner of an opening bracket is found where it is in the part after it. -/
theorem matching_eq {left right : Char} (stretch : Stretch all i (first :: rest) j)
    (opens : first.isPunct left = true) :
    tape.matching i left right j =
      lift ((Code.close left right first rest).map fun enclosed =>
        i + 1 + enclosed.inside.length) := by
  have found := holds.closing?_eq left right 0 stretch.tail
  rw [Tape.matching, holds.closing?_cons _ _ _ stretch, if_pos opens, found, Code.close,
    holds.token_eq stretch.head]
  cases Code.close? left right 0 rest <;> rfl

end Tape.Holds

theorem Tape.holds_ofTokens {source space : Text} {tokens : List Token} (comments : List Token)
    (spelled : Token.spell tokens ++ space = source) (placed : Token.Placed 0 tokens) :
    Tape.Holds ⟨source, tokens.filter fun token => !token.isComment, comments⟩
      (Code.ofTokens tokens).tokens := by
  have whole := Code.flat_ofTokens tokens
  obtain ⟨bound, tail⟩ := Code.bound_ofTokens tokens
  refine ⟨?_, ⟨Token.spell (Code.ofTokens tokens).tail ++ space, ?_⟩, ?_,
    Code.marks_ofTokens tokens⟩
  · have none : (Code.ofTokens tokens).tail.filter (fun token => !token.isComment) = [] := by
      rw [List.filter_eq_nil_iff]
      intro comment listed
      simp [tail comment listed]
    change tokens.filter _ = _
    nth_rewrite 1 [← whole]
    rw [List.filter_append, Code.filter_flat bound, none, List.append_nil]
  · rw [← List.append_assoc, ← Token.spell_append, whole, spelled]
  · rw [← whole] at placed
    exact (Token.placed_append.mp placed).1

end JavaRecords.Indexed
