import JavaRecords.Proofs.Indexed.Lexer
import JavaRecords.Proofs.Indexed.Operators

set_option autoImplicit false

namespace JavaRecords.Indexed

namespace Tape

variable (tape : Tape)

def followsDot (k : Nat) : Run Bool :=
  if k = 0 then return false
  else do
    let previous ← sub k 1
    return tape.isPunct previous '.'

/-- The identifier at a place, if it can be written. -/
def bareTarget? (k : Nat) : Run (Option (Text × Bool × Nat)) :=
  if tape.isIdent k then do
    let name ← tape.text k
    if isKeyword name then return none
    else if ← tape.followsDot k then return none
    else return some (name, false, k)
  else return none

/-- What can be written at a place: its name, whether it is a field of `this`, and the place of its
last token. -/
def target? (k : Nat) : Run (Option (Text × Bool × Nat)) :=
  if tape.isWord k "this" && tape.isPunct (k + 1) '.' && tape.isIdent (k + 2) then do
    let name ← tape.text (k + 2)
    return some (name, true, k + 2)
  else tape.bareTarget? k

/-- The first of the assignment operators that end at some places which starts at `start`. -/
def assignFrom (start : Nat) : List Nat → Run (Option AssignOp)
  | [] => return none
  | i :: rest => do
      match ← tape.assignAt i with
      | some (first, op) => if first = start then return some op else assignFrom start rest
      | none => assignFrom start rest

def writeOp (k last : Nat) : Run (Option AssignOp) := do
  match ← tape.assignFrom (last + 1) (List.range' (last + 1) 4) with
  | some op => return some op
  | none =>
      match ← tape.incrementAt (last + 1) with
      | some op => return some op
      | none =>
          if 2 ≤ k then
            let first ← sub k 2
            tape.incrementAt first
          else return none

def writeAt (k : Nat) : Run (Option VariableWrite) := do
  match ← tape.target? k with
  | none => return none
  | some (name, qualified, last) =>
      match ← tape.writeOp k last with
      | none => return none
      | some op =>
          let token ← tape.token k
          return some ⟨name, qualified, op, token.start⟩

def writesFrom (k : Nat) : Run (List VariableWrite) :=
  if _ : k < tape.tokens.length then do
    let write ← tape.writeAt k
    let rest ← writesFrom (k + 1)
    return write.toList ++ rest
  else return []
termination_by tape.tokens.length - k

/-- Whether a type can end at the place `i`, if it starts at the place `low` or after it. -/
def endsType (low i : Nat) : Run Bool := do
  let typed ← also (tape.isIdent i) ((tape.text i).map isTypeName)
  let dims ← also (low < i && tape.isPunct i ']') ((sub i 1).map (tape.isPunct · '['))
  return typed || tape.isPunct i '>' || dims

/-- Whether the token at a place can end the declaration of the name before it. -/
def endsDeclarator (i : Nat) : Run Bool := do
  let assign ← tape.assignAt i
  return assign.any (·.2 == .assign) || tape.isPunct i ';' || tape.isPunct i ','
    || tape.isPunct i ':' || tape.isPunct i ')'

def declares (k : Nat) : Run Bool := do
  if ← also (tape.isPunct (k + 1) '-') (tape.arrowAt (k + 2)) then return true
  else
    let ends ← tape.endsDeclarator (k + 1)
    let previous ← sub k 1
    let typed ← tape.endsType 0 previous
    return ends && typed

def declaredFrom (declared : List Text) (k : Nat) : Run (List Text) :=
  if _ : k < tape.tokens.length then do
    if ← also (tape.isIdent k) ((tape.text k).map (!isKeyword ·)) then
      if ← tape.declares k then
        let name ← tape.text k
        declaredFrom (if declared.contains name then declared else declared ++ [name]) (k + 1)
      else declaredFrom declared (k + 1)
    else declaredFrom declared (k + 1)
  else return declared
termination_by tape.tokens.length - k

end Tape

def fragment (text : Text) : Run Tape := do
  let tokens ← lex text
  return ⟨text, tokens.filter fun token => !token.isComment, []⟩

/-- Every write in a piece of code whose target is a simple name or a field of `this`. -/
def scanWrites (text : Text) : Run (List VariableWrite) := do
  let tape ← fragment text
  tape.writesFrom 0

def scanDeclaredNames (text : Text) : Run (List Text) := do
  let tape ← fragment text
  tape.declaredFrom [] 1

section

variable {α : Type} {all after : List α} {first : α} {k : Nat}

theorem getElem?_add (split : all.drop k = after) (n : Nat) : all[k + n]? = after[n]? := by
  rw [← split, List.getElem?_drop]

theorem drop_succ (split : all.drop k = first :: after) : all.drop (k + 1) = after := by
  rw [← List.tail_drop, split, List.tail_cons]

/-- The tokens before a place, from right to left. -/
theorem getElem?_reverse_take (inside : k ≤ all.length) {n : Nat} (low : n < k) :
    (all.take k).reverse[n]? = all[k - 1 - n]? := by
  have size : (all.take k).length = k := List.length_take_of_le inside
  rw [List.getElem?_reverse (by omega), size, List.getElem?_take_of_lt (by omega)]

theorem reverse_take_succ (split : all.drop k = first :: after) :
    (all.take (k + 1)).reverse = first :: (all.take k).reverse := by
  have found := getElem?_add split 0
  rw [Nat.add_zero] at found
  rw [List.take_add_one, found]
  simp

end

theorem suffix_of_target? {before rest : List CodeToken} {code : CodeToken} {target : Code.Target}
    (found : Code.target? before code rest = some target) : target.after <:+ rest := by
  have bare : ∀ {found : Code.Target}, (if code.isIdent && !isKeyword code.text
      && !(before.head?.any (·.isPunct '.')) then some ⟨code.text, false, rest⟩ else none) =
        some found →
      found.after <:+ rest := by
    intro found isFound
    split at isFound <;> cases isFound
    exact List.suffix_rfl
  unfold Code.target? at found
  dsimp only at found
  split at found
  · split at found
    · cases found
      exact ⟨[_, _], rfl⟩
    · exact bare found
  · exact bare found

namespace Tape.Holds

variable {tape : Tape} {all after rest : List CodeToken} {code : CodeToken} {k : Nat}
  (holds : tape.Holds all)
include holds

theorem isPunct_any (i : Nat) (c : Char) : tape.isPunct i c = all[i]?.any (·.isPunct c) := by
  rw [Tape.isPunct, holds.getElem?, Option.any_map]
  rfl

theorem isIdent_any (i : Nat) : tape.isIdent i = all[i]?.any CodeToken.isIdent := by
  rw [Tape.isIdent, holds.getElem?, Option.any_map]
  rfl

theorem assignAt_bind (i : Nat) : tape.assignAt i =
    .ok ((all[i]?.bind CodeToken.assign).map fun op => (i - op.lead, op)) := by
  cases found : all[i]? with
  | none => rw [holds.assignAt_of_none found]; rfl
  | some code => rw [holds.assignAt_eq found]; rfl

theorem assignFrom_eq {start : Nat} (positive : 0 < start) (d n : Nat)
    (split : all.drop (start + d) = after) :
    tape.assignFrom start (List.range' (start + d) n) =
      .ok (((after.take n).zipIdx d).findSome? fun (token, index) =>
        token.assign.filter fun op => op.lead == index) := by
  induction n generalizing d after with
  | zero => rfl
  | succ n ih =>
      have found := getElem?_add split 0
      rw [Nat.add_zero] at found
      rw [List.range'_succ, Tape.assignFrom, holds.assignAt_bind, found, ok_bind]
      cases after with
      | nil =>
          have past := List.drop_eq_nil_iff.mp split
          have later := ih (d + 1) (List.drop_eq_nil_iff.mpr (by omega))
          rwa [List.take_nil] at *
      | cons code rest =>
          have later := ih (d + 1) (drop_succ split)
          rw [List.take_succ_cons, List.zipIdx_cons, List.findSome?_cons, ← Nat.add_assoc] at *
          cases isAssign : code.assign with
          | none => simpa [isAssign] using later
          | some op =>
              have same : start + d - op.lead = start ↔ op.lead = d := by omega
              by_cases here : op.lead = d
              · simp [isAssign, here, Option.filter_some]
              · simpa [isAssign, here, same, Option.filter_some] using later

theorem followsDot_eq (inside : k ≤ all.length) :
    tape.followsDot k = .ok ((all.take k).reverse.head?.any (·.isPunct '.')) := by
  by_cases first : k = 0
  · subst first
    rfl
  · rw [Tape.followsDot, if_neg first, sub_of_le (by omega), ok_bind, holds.isPunct_any,
      List.head?_eq_getElem?, getElem?_reverse_take inside (by omega)]
    rfl

theorem bareTarget?_eq (split : all.drop k = code :: rest) : tape.bareTarget? k =
    .ok (if code.isIdent && !isKeyword code.text
        && !((all.take k).reverse.head?.any (·.isPunct '.')) then
      some (code.text, false, k) else none) := by
  have here : all[k]? = some code := getElem?_add split 0
  have inside : k ≤ all.length := (List.getElem?_eq_some_iff.mp here).1.le
  rw [Tape.bareTarget?, holds.isIdent_eq here, holds.text_eq here, ok_bind,
    holds.followsDot_eq inside]
  cases code.isIdent <;> cases isKeyword code.text <;>
    cases (all.take k).reverse.head?.any (·.isPunct '.') <;> rfl

/-- What can be written at a place is what can be written there in the code. -/
theorem target?_eq (split : all.drop k = code :: rest) :
    tape.target? k = .ok ((Code.target? (all.take k).reverse code rest).map fun target =>
      (target.name, target.qualified, k + (rest.length - target.after.length))) := by
  have found : ∀ n, all[k + n]? = (code :: rest)[n]? := getElem?_add split
  have here : all[k]? = some code := found 0
  have bare := holds.bareTarget?_eq split
  unfold Code.target? Tape.target?
  rw [holds.isWord_eq here, holds.isPunct_any, holds.isIdent_any, found 1, found 2, bare]
  match rest with
  | [] =>
      simp
  | [_] =>
      simp
  | dot :: field :: rest =>
      have second : all[k + 2]? = some field := found 2
      simp only [List.getElem?_cons_succ, List.getElem?_cons_zero, Option.any_some,
        holds.text_eq second, ok_bind]
      by_cases qualified : (code.isWord "this" && dot.isPunct '.' && field.isIdent) = true
      · rw [if_pos qualified, if_pos qualified]
        simp [Nat.add_assoc]
      · rw [if_neg qualified, if_neg qualified]
        split <;> simp

/-- The increment or decrement that starts at a place. -/
theorem incrementAt_drop (split : all.drop k = after) :
    tape.incrementAt k = .ok (Code.leadingIncrement? after) := by
  have found : ∀ n, all[k + n]? = after[n]? := getElem?_add split
  match after with
  | [] => exact holds.incrementAt_of_none (found 1)
  | [_] => exact holds.incrementAt_of_none (found 1)
  | first :: second :: rest => exact holds.incrementAt_eq (found 0) (found 1)

/-- The increment or decrement that ends before a place. -/
theorem incrementAt_take (inside : k ≤ all.length) :
    (if 2 ≤ k then sub k 2 >>= tape.incrementAt else .ok none) =
      .ok (Code.trailingIncrement? (all.take k).reverse) := by
  have size : (all.take k).reverse.length = k := by
    rw [List.length_reverse, List.length_take_of_le inside]
  match reversed : (all.take k).reverse with
  | [] =>
      rw [reversed, List.length_nil] at size
      exact if_neg (by omega)
  | [_] =>
      rw [reversed, List.length_singleton] at size
      exact if_neg (by omega)
  | last :: first :: earlier =>
      rw [reversed, List.length_cons, List.length_cons] at size
      have isLast := getElem?_reverse_take inside (n := 0) (by omega)
      have isFirst := getElem?_reverse_take inside (n := 1) (by omega)
      rw [reversed] at isLast isFirst
      rw [if_pos (by omega), sub_of_le (by omega), ok_bind]
      apply holds.incrementAt_eq
      · rw [show k - 2 = k - 1 - 1 by omega, ← isFirst]
        rfl
      · rw [show k - 2 + 1 = k - 1 - 0 by omega, ← isLast]
        rfl

/-- The operator that writes a target. -/
theorem writeOp_eq (inside : k ≤ all.length) {last : Nat} (split : all.drop (last + 1) = after) :
    tape.writeOp k last = .ok (Code.writeOp? (all.take k).reverse after) := by
  have assign := holds.assignFrom_eq (show 0 < last + 1 from Nat.succ_pos _) 0 4 split
  change tape.assignFrom (last + 1) (List.range' (last + 1) 4) =
    .ok (Code.leadingAssign? after) at assign
  have trailing := holds.incrementAt_take inside
  rw [Tape.writeOp, assign, ok_bind, Code.writeOp?]
  cases Code.leadingAssign? after with
  | some op => rfl
  | none =>
      dsimp only
      rw [holds.incrementAt_drop split]
      cases Code.leadingIncrement? after with
      | some op => rfl
      | none => exact trailing

theorem writesFrom_eq (split : all.drop k = after) :
    tape.writesFrom k = .ok (Code.writesFrom (all.take k).reverse after) := by
  induction after generalizing k with
  | nil =>
      have past := List.drop_eq_nil_iff.mp split
      rw [Tape.writesFrom, dif_neg (by rw [holds.length_tokens]; omega)]
      rfl
  | cons code rest ih =>
      have here : all[k]? = some code := getElem?_add split 0
      have inside := (List.getElem?_eq_some_iff.mp here).1
      have later := ih (drop_succ split)
      rw [reverse_take_succ split] at later
      have write : tape.writeAt k = .ok (do
          let target ← Code.target? (all.take k).reverse code rest
          let op ← Code.writeOp? (all.take k).reverse target.after
          some ⟨target.name, target.qualified, op, code.start⟩) := by
        rw [Tape.writeAt, holds.target?_eq split, ok_bind]
        cases found : Code.target? (all.take k).reverse code rest with
        | none => rfl
        | some target =>
            have suffix := suffix_of_target? found
            have split : all.drop (k + (rest.length - target.after.length) + 1) = target.after := by
              rw [Nat.add_right_comm, ← List.drop_drop, drop_succ split]
              exact List.suffix_iff_eq_drop.mp suffix |>.symm
            simp only [Option.map_some, holds.writeOp_eq inside.le split, holds.token_eq here,
              ok_bind, Option.bind_eq_bind, Option.bind_some]
            cases Code.writeOp? (all.take k).reverse target.after <;> rfl
      rw [Tape.writesFrom, dif_pos (by rwa [holds.length_tokens]), write, later]
      rfl

theorem endsType_eq {low i : Nat} {part : List CodeToken} (stretch : Stretch all low part (i + 1))
    (nonempty : part ≠ []) : tape.endsType low i = .ok (Code.endsType part.reverse) := by
  obtain ⟨front, last, rfl⟩ := (List.eq_nil_or_concat part).resolve_left nonempty
  rw [List.concat_eq_append] at *
  have isLast : all[i]? = some last := stretch.last
  have size := stretch.length
  rw [List.length_append, List.length_singleton] at size
  have dims : also (decide (low < i) && tape.isPunct i ']') ((sub i 1).map (tape.isPunct · '[')) =
      .ok (last.isPunct ']' && front.reverse.head?.any (·.isPunct '[')) := by
    rw [holds.isPunct_eq isLast]
    rcases List.eq_nil_or_concat front with rfl | ⟨earlier, previous, rfl⟩
    · have low : ¬ low < i := by
        rw [List.length_nil] at size
        omega
      simp [low]
    · rw [List.concat_eq_append] at *
      have isPrevious : all[i - 1]? = some previous := by
        have found := (stretch.append.1).last
        rwa [show low + (earlier ++ [previous]).length - 1 = i - 1 by omega] at found
      have high : low < i := by
        rw [List.length_append, List.length_singleton] at size
        omega
      rw [sub_of_le (by omega), map_ok, holds.isPunct_eq isPrevious, also_ok]
      simp [high]
  rw [Tape.endsType, holds.isIdent_eq isLast, holds.text_eq isLast, map_ok, also_ok, ok_bind, dims,
    ok_bind, holds.isPunct_eq isLast, List.reverse_append]
  rfl

theorem endsDeclarator_eq (split : all.drop k = after) :
    tape.endsDeclarator k = .ok (Code.endsDeclarator after) := by
  have found : all[k]? = after[0]? := getElem?_add split 0
  rw [Tape.endsDeclarator, holds.assignAt_bind, found]
  simp only [holds.isPunct_any, found]
  cases after with
  | nil => rfl
  | cons next rest =>
      simp only [Code.endsDeclarator, List.getElem?_cons_zero, Option.bind_some, Option.any_some,
        ok_bind, pure_eq_ok]
      cases next.assign <;> rfl

theorem startsArrow_eq (split : all.drop k = after) :
    also (tape.isPunct k '-') (tape.arrowAt (k + 1)) = .ok (Code.startsArrow after) := by
  have found : ∀ n, all[k + n]? = after[n]? := getElem?_add split
  match after with
  | [] =>
      have here : all[k]? = none := found 0
      rw [holds.isPunct_of_none here]
      rfl
  | [_] =>
      rw [holds.arrowAt_of_none (found 1), also_ok, Bool.and_false]
      rfl
  | dash :: angle :: rest =>
      have here : all[k]? = some dash := found 0
      rw [holds.isPunct_eq here, holds.arrowAt_eq (found 1), also_ok]
      rfl

theorem declares_eq (positive : 0 < k) (split : all.drop k = code :: rest) :
    tape.declares k = .ok (Code.startsArrow rest ||
      (Code.endsDeclarator rest && Code.endsType (all.take k).reverse)) := by
  have inside := (List.getElem?_eq_some_iff.mp (getElem?_add split 0)).1
  have before : Stretch all 0 (all.take k) (k - 1 + 1) :=
    ⟨[], all.drop k, by simp, rfl, by simp; omega⟩
  have nonempty : all.take k ≠ [] := by
    intro none
    have size := congrArg List.length none
    rw [List.length_take_of_le (by omega), List.length_nil] at size
    omega
  have later := drop_succ split
  rw [Tape.declares, holds.startsArrow_eq later, ok_bind, holds.endsDeclarator_eq later, ok_bind,
    sub_of_le (by omega), ok_bind, holds.endsType_eq before nonempty]
  cases Code.startsArrow rest <;> rfl

/-- The names that are declared from a place on. -/
theorem declaredFrom_eq (declared : List Text) (positive : 0 < k) (split : all.drop k = after) :
    tape.declaredFrom declared k =
      .ok (Code.declaredFrom declared (all.take k).reverse after) := by
  induction after generalizing k declared with
  | nil =>
      have past := List.drop_eq_nil_iff.mp split
      rw [Tape.declaredFrom, dif_neg (by rw [holds.length_tokens]; omega)]
      rfl
  | cons code rest ih =>
      have here : all[k]? = some code := getElem?_add split 0
      have inside := (List.getElem?_eq_some_iff.mp here).1
      have filled : (all.take k).reverse.isEmpty = false := by
        rw [List.isEmpty_eq_false_iff, Ne, List.reverse_eq_nil_iff, List.take_eq_nil_iff]
        rintro (none | none)
        · omega
        · rw [none] at inside
          exact absurd inside (Nat.not_lt_zero _)
      have later := fun declared => ih declared (Nat.succ_pos k) (drop_succ split)
      rw [reverse_take_succ split] at later
      rw [Tape.declaredFrom, dif_pos (by rwa [holds.length_tokens]), holds.isIdent_eq here,
        holds.text_eq here, map_ok, also_ok, ok_bind, holds.declares_eq positive split, ok_bind,
        Code.declaredFrom, filled]
      cases ident : code.isIdent && !isKeyword code.text with
      | false => simp [later, ident]
      | true =>
          obtain ⟨isIdent, noKeyword⟩ := Bool.and_eq_true_iff.mp ident
          cases ends : Code.startsArrow rest
              || (Code.endsDeclarator rest && Code.endsType (all.take k).reverse) with
          | false => simp [later]
          | true =>
              rw [isIdent, noKeyword]
              simp only [later, ok_bind, if_true]
              cases declared.contains code.text <;> rfl

/-- The first token declares nothing. -/
theorem declaredFrom_one : tape.declaredFrom [] 1 = .ok (Code.declaredFrom [] [] all) := by
  have later := holds.declaredFrom_eq [] Nat.one_pos (show all.drop 1 = all.drop 1 from rfl)
  rw [later]
  cases all with
  | nil => rfl
  | cons first rest => rfl

end Tape.Holds

/-- The tape of a piece of code holds its code. -/
theorem fragment_eq (text : Text) :
    (∃ error, JavaRecords.lex text = .error error ∧ fragment text = .error (.parse (.lex error))) ∨
      ∃ tokens tape, JavaRecords.lex text = .ok tokens ∧ fragment text = .ok tape ∧
        tape.Holds (Code.ofTokens tokens).tokens := by
  have read := lex_eq text
  unfold fragment
  rw [read]
  cases lexed : JavaRecords.lex text with
  | error error => exact Or.inl ⟨error, rfl, rfl⟩
  | ok tokens =>
      obtain ⟨closed, rfl⟩ := lex_eq_ok_iff.mp lexed
      obtain ⟨_, _, placed⟩ := chain_of_lexFrom 0 text closed
      exact Or.inr ⟨_, _, rfl, rfl, Tape.holds_ofTokens [] (spell_lexFrom 0 text closed) placed⟩

/-- The scan for writes over positions finds what the scan over the code does. -/
theorem scanWrites_eq (text : Text) :
    scanWrites text = lift ((JavaRecords.scanWrites text).mapError .lex) := by
  rw [scanWrites, JavaRecords.scanWrites, Code.read]
  rcases fragment_eq text with ⟨error, lexed, read⟩ | ⟨tokens, tape, lexed, read, holds⟩
  · rw [lexed, read]
    rfl
  · rw [lexed, read, ok_bind, holds.writesFrom_eq (List.drop_zero)]
    rfl

theorem scanDeclaredNames_eq (text : Text) :
    scanDeclaredNames text = lift ((JavaRecords.scanDeclaredNames text).mapError .lex) := by
  rw [scanDeclaredNames, JavaRecords.scanDeclaredNames, Code.read]
  rcases fragment_eq text with ⟨error, lexed, read⟩ | ⟨tokens, tape, lexed, read, holds⟩
  · rw [lexed, read]
    rfl
  · rw [lexed, read, ok_bind]
    change tape.declaredFrom [] 1 = .ok (Code.declaredFrom [] [] (Code.ofTokens tokens).tokens)
    rw [holds.declaredFrom_one]

end JavaRecords.Indexed
