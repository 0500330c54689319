import JavaRecords.Proofs.Parse.Header

set_option autoImplicit false

namespace JavaRecords

namespace CodeToken

theorem isPunct_of_isPunct {code : CodeToken} {c : Char} (punct : code.isPunct c = true)
    (d : Char) :
    code.isPunct d = (c == d) := by
  obtain ⟨kind, text⟩ := ClassLayout.isPunct_text punct
  have same : code.token.text = [c] := text
  simp [isPunct, Token.isPunct, kind, same]

theorem isPunct_of_isIdent {code : CodeToken} (ident : code.isIdent = true) (d : Char) :
    code.isPunct d = false := by
  have kind : code.token.kind = .ident := by simpa [isIdent, Token.isIdent] using ident
  simp [isPunct, Token.isPunct, kind]

theorem isIdent_of_isWord {code : CodeToken} {word : String} (isWord : code.isWord word = true) :
    code.isIdent = true := by
  simp only [CodeToken.isWord, Token.isWord, Bool.and_eq_true, beq_iff_eq] at isWord
  simp [isIdent, Token.isIdent, isWord.1]

/-- An assignment operator ends with an equals sign. -/
def Marked (code : CodeToken) : Prop := code.assign.isSome = true → code.isPunct '=' = true

end CodeToken

namespace Code

theorem marked_of_assign {code : CodeToken} {before after : List Token}
    (assign : code.assign = code.token.assignOp? before after) : code.Marked := by
  intro assigns
  by_contra other
  have none : code.token.isPunct '=' = false := by simpa [CodeToken.isPunct] using other
  rw [assign] at assigns
  simp [Token.assignOp?, none] at assigns

theorem marked_markOperators (before : List Token) (bound : List (List Token × Token)) :
    ∀ code ∈ markOperators before bound, code.Marked := by
  induction bound generalizing before with
  | nil => exact fun _ listed => absurd listed List.not_mem_nil
  | cons entry rest ih =>
      intro code listed
      rcases List.mem_cons.mp listed with rfl | later
      · exact marked_of_assign rfl
      · exact ih (entry.2 :: before) code later

theorem marked_ofTokens (tokens : List Token) :
    ∀ code ∈ (Code.ofTokens tokens).tokens, code.Marked :=
  marked_markOperators [] _

end Code

namespace PieceScan

/-- The scan of a declaration that has met no parenthesis, brace or assignment. -/
def fresh : PieceScan := ⟨0, false, 0, 0⟩

/-- The scan of a declaration with open parentheses outside its blocks. -/
def within (parens : Nat) : PieceScan := ⟨parens, false, 0, 0⟩

theorem step_declarationRule (scan : PieceScan) (code : CodeToken) (next : Option CodeToken) :
    scan.step Code.declarationRule code next = scan.step Code.declarationRule code none := by
  unfold step
  cases next <;> rfl

theorem step_fresh_of_ident {code : CodeToken} (marked : code.Marked)
    (ident : code.isIdent = true) :
    fresh.step Code.declarationRule code none = some fresh := by
  have none := CodeToken.isPunct_of_isIdent ident
  have silent : code.assign.isSome = false := by
    cases assigns : code.assign.isSome with
    | false => rfl
    | true => simpa [none] using marked assigns
  simp [step, fresh, none, Code.declarationRule, silent]

theorem step_fresh_of_punct {code : CodeToken} {c : Char} (marked : code.Marked)
    (punct : code.isPunct c = true) (plain : c ∉ ['(', ')', ';', '{', '=']) :
    fresh.step Code.declarationRule code none = some fresh := by
  have same := CodeToken.isPunct_of_isPunct punct
  simp only [List.mem_cons, List.not_mem_nil, or_false, not_or] at plain
  have silent : code.assign.isSome = false := by
    cases assigns : code.assign.isSome with
    | false => rfl
    | true => simpa [same, plain] using marked assigns
  simp [step, fresh, same, plain, Code.declarationRule, silent]

theorem step_fresh_of_paren {code : CodeToken} (paren : code.isPunct '(' = true) :
    fresh.step Code.declarationRule code none = some (within 1) := by
  simp [step, fresh, within, paren]

theorem step_fresh_of_brace {code : CodeToken} (brace : code.isPunct '{' = true) :
    fresh.step Code.declarationRule code none = some ⟨0, false, 1, code.start⟩ := by
  have same := CodeToken.isPunct_of_isPunct brace
  simp [step, fresh, same]

/-- The scan of a declaration after some more tokens, unless the declaration ends with one of them.
-/
def across (scan : PieceScan) : List CodeToken → Option PieceScan
  | [] => some scan
  | code :: rest =>
      (scan.step Code.declarationRule code none).bind fun next => next.across rest

theorem across_cons {scan next : PieceScan} {code : CodeToken}
    (goes : scan.step Code.declarationRule code none = some next) (rest : List CodeToken) :
    scan.across (code :: rest) = next.across rest := by
  rw [across, goes]
  rfl

theorem across_append (scan : PieceScan) (left right : List CodeToken) :
    scan.across (left ++ right) = (scan.across left).bind fun next => next.across right := by
  induction left generalizing scan with
  | nil => rfl
  | cons code rest ih =>
      rw [List.cons_append, across, across, Option.bind_assoc]
      simp only [ih]

theorem across_of_over {scan next : PieceScan} {left : List CodeToken}
    (goes : scan.across left = some next) (right : List CodeToken) :
    scan.across (left ++ right) = next.across right := by
  rw [across_append, goes]
  rfl

end PieceScan

namespace Code

/-- A declaration whose scan stands at `scan` ends with the last of some tokens. -/
inductive Completes : PieceScan → List CodeToken → Prop
  /-- No token is left, and no brace is open. -/
  | out {scan : PieceScan} (outside : scan.braces = 0) : Completes scan []
  | last {scan : PieceScan} {code : CodeToken} (ends : scan.step declarationRule code none = none) :
      Completes scan [code]
  | step {scan next : PieceScan} {code : CodeToken} {rest : List CodeToken}
      (goes : scan.step declarationRule code none = some next) (others : Completes next rest) :
      Completes scan (code :: rest)

theorem Completes.next {scan next : PieceScan} {code : CodeToken} {rest : List CodeToken}
    (completes : Completes scan (code :: rest))
    (goes : scan.step declarationRule code none = some next) : Completes next rest := by
  cases completes with
  | last ends =>
      rw [ends] at goes
      cases goes
  | step found others =>
      rw [found] at goes
      cases goes
      exact others

theorem Completes.across {scan next : PieceScan} {left right : List CodeToken}
    (completes : Completes scan (left ++ right)) (goes : scan.across left = some next) :
    Completes next right := by
  induction left generalizing scan with
  | nil =>
      cases goes
      exact completes
  | cons code rest ih =>
      obtain ⟨middle, first, later⟩ := Option.bind_eq_some_iff.mp goes
      exact ih (completes.next first) later

/-- A declaration does not end before its last token. -/
theorem Completes.goes {scan : PieceScan} {left right : List CodeToken}
    (completes : Completes scan (left ++ right)) (more : right ≠ []) :
    ∃ next, scan.across left = some next := by
  induction left generalizing scan with
  | nil => exact ⟨scan, rfl⟩
  | cons code rest ih =>
      rw [List.cons_append] at completes
      generalize split : rest ++ right = others at completes
      cases completes with
      | last ends =>
          rw [List.append_eq_nil_iff] at split
          exact absurd split.2 more
      | @step _ next _ _ goes later =>
          rw [← split] at later
          rw [PieceScan.across_cons goes]
          exact ih later

/-- A declaration whose scan stands at `scan` ends with the last of some tokens and not before. -/
inductive Ends : PieceScan → List CodeToken → Prop
  | last {scan : PieceScan} {code : CodeToken} (ends : scan.step declarationRule code none = none) :
      Ends scan [code]
  | step {scan next : PieceScan} {code : CodeToken} {rest : List CodeToken}
      (goes : scan.step declarationRule code none = some next) (others : Ends next rest) :
      Ends scan (code :: rest)

theorem Ends.completes {scan : PieceScan} {code : List CodeToken} (ends : Ends scan code) :
    Completes scan code := by
  induction ends with
  | last ends => exact .last ends
  | step goes _ ih => exact .step goes ih

theorem Ends.across {scan next : PieceScan} {left right : List CodeToken}
    (goes : scan.across left = some next) (ends : Ends next right) : Ends scan (left ++ right) := by
  induction left generalizing scan with
  | nil =>
      cases goes
      exact ends
  | cons code rest ih =>
      obtain ⟨middle, first, later⟩ := Option.bind_eq_some_iff.mp goes
      exact .step first (ih later)

/-- Declarations one after the other: each ends with its last token, and only the last one may stop
where its tokens do. -/
inductive Cut : List Piece → Prop
  | nil : Cut []
  | last {piece : Piece} (completes : Completes .fresh piece.tokens) : Cut [piece]
  | cons {piece : Piece} {rest : List Piece} (ends : Ends .fresh piece.tokens) (others : Cut rest) :
      Cut (piece :: rest)

theorem Cut.tail {piece : Piece} {rest : List Piece} (cut : Cut (piece :: rest)) : Cut rest := by
  cases cut with
  | last _ => exact .nil
  | cons _ others => exact others

theorem Cut.completes {pieces : List Piece} (cut : Cut pieces) :
    ∀ piece ∈ pieces, Completes .fresh piece.tokens := by
  induction cut with
  | nil => exact fun _ listed => absurd listed List.not_mem_nil
  | last completes =>
      intro piece listed
      rw [List.mem_singleton.mp listed]
      exact completes
  | cons ends _ ih =>
      intro piece listed
      rcases List.mem_cons.mp listed with rfl | later
      · exact ends.completes
      · exact ih piece later

/-- The declarations after one that some tokens complete. -/
theorem Cut.of_here {first : CodeToken} {here : List CodeToken} {pieces : List Piece}
    (completes : Completes .fresh (first :: here))
    (ends : pieces ≠ [] → Ends .fresh (first :: here)) (cut : Cut pieces) :
    Cut (⟨first, here⟩ :: pieces) := by
  cases pieces with
  | nil => exact .last completes
  | cons piece rest => exact .cons (ends (List.cons_ne_nil _ _)) cut

/-- What some tokens are cut into: the rest of the declaration under way, and declarations. -/
theorem cut_piecesFrom (scan : Option PieceScan) (code : List CodeToken)
    (closed : (piecesFrom declarationRule scan code).unclosed = none) :
    (∀ state, scan = some state → ∀ here, (piecesFrom declarationRule scan code).here = some here →
      Completes state here ∧
        ((piecesFrom declarationRule scan code).pieces ≠ [] → Ends state here)) ∧
    Cut (piecesFrom declarationRule scan code).pieces := by
  -- a token and what is cut after it
  have join : ∀ (state : PieceScan) (first : CodeToken) (rest : List CodeToken),
      (∀ next, state.step declarationRule first rest.head? = some next → ∀ here,
        (piecesFrom declarationRule (state.step declarationRule first rest.head?) rest).here =
          some here → Completes next here ∧ ((piecesFrom declarationRule
            (state.step declarationRule first rest.head?) rest).pieces ≠ [] → Ends next here)) →
      ∀ here, (piecesFrom declarationRule (state.step declarationRule first rest.head?) rest).here =
        some here → Completes state (first :: here) ∧ ((piecesFrom declarationRule
          (state.step declarationRule first rest.head?) rest).pieces ≠ [] →
            Ends state (first :: here)) := by
    intro state first rest later here found
    have same := state.step_declarationRule first rest.head?
    cases goes : state.step declarationRule first rest.head? with
    | some next =>
        rw [goes] at found later
        obtain ⟨completes, ends⟩ := later next rfl here found
        have stepped := same.symm.trans goes
        exact ⟨.step stepped completes, fun more => .step stepped (ends more)⟩
    | none =>
        have empty : here = [] := by
          rw [goes] at found
          cases rest <;> exact (Option.some.inj found).symm
        have stepped := same.symm.trans goes
        rw [empty]
        exact ⟨.last stepped, fun _ => .last stepped⟩
  fun_induction piecesFrom declarationRule scan code with
  | case1 => exact ⟨fun _ absent => (by cases absent), .nil⟩
  | case2 scan outside =>
      refine ⟨?_, .nil⟩
      intro state same here found
      cases same
      cases found
      exact ⟨.out outside, fun more => absurd rfl more⟩
  | case3 => cases closed
  | case4 first rest after ih =>
      obtain ⟨here, others⟩ := ih closed
      refine ⟨fun _ absent => (by cases absent), ?_⟩
      change Cut ((after.here.map (Piece.mk first)).toList ++ after.pieces)
      cases found : after.here with
      | none => exact others
      | some tokens =>
          obtain ⟨completes, ends⟩ := join .fresh first rest here tokens found
          exact .of_here completes ends others
  | case5 scan first rest after ih =>
      obtain ⟨here, others⟩ := ih closed
      refine ⟨?_, others⟩
      intro state same tokens found
      cases same
      obtain ⟨inner, isInner, rfl⟩ := Option.map_eq_some_iff.mp found
      exact join scan first rest here inner isInner

theorem cut_of_pieces {code : List CodeToken}
    (closed : (pieces declarationRule code).unclosed = none) :
    Cut (pieces declarationRule code).pieces :=
  (cut_piecesFrom none code closed).2

/-- What is cut off a declaration under way completes it, whatever is left open after it. -/
theorem completes_piecesFrom (scan : PieceScan) (code : List CodeToken) {here : List CodeToken}
    (found : (piecesFrom declarationRule (some scan) code).here = some here) :
    Completes scan here := by
  induction code generalizing scan here with
  | nil =>
      rw [piecesFrom] at found
      split at found
      · cases found
        exact .out ‹_›
      · cases found
  | cons first rest ih =>
      rw [piecesFrom, scan.step_declarationRule] at found
      obtain ⟨inner, isInner, rfl⟩ := Option.map_eq_some_iff.mp found
      cases goes : scan.step declarationRule first none with
      | none =>
          have empty : inner = [] := by
            rw [goes] at isInner
            cases rest <;> exact (Option.some.inj isInner).symm
          rw [empty]
          exact .last goes
      | some next => exact .step goes (ih next (goes ▸ isInner))

/-- The tokens of a declaration under way are cut off where it ends. -/
theorem piecesFrom_of_ends {scan : PieceScan} {code : List CodeToken} (ends : Ends scan code)
    (rest : List CodeToken) :
    piecesFrom declarationRule (some scan) (code ++ rest) =
      { pieces declarationRule rest with here := some code } := by
  induction ends with
  | @last scan code ends =>
      have same := (scan.step_declarationRule code rest.head?).trans ends
      rw [List.singleton_append, piecesFrom, same]
      cases rest <;> rfl
  | @step scan next code more goes _ ih =>
      have same := (scan.step_declarationRule code (more ++ rest).head?).trans goes
      rw [List.cons_append, piecesFrom, same, ih]
      rfl

theorem piecesFrom_of_completes {scan : PieceScan} {code : List CodeToken}
    (completes : Completes scan code) :
    piecesFrom declarationRule (some scan) code = ⟨some code, [], none⟩ := by
  induction completes with
  | out outside => rw [piecesFrom, if_pos outside]
  | @last scan code ends =>
      have same := (scan.step_declarationRule code none).trans ends
      rw [piecesFrom, List.head?_nil, same]
      rfl
  | @step scan next code more goes _ ih =>
      have same := (scan.step_declarationRule code more.head?).trans goes
      rw [piecesFrom, same, ih]
      rfl

theorem piecesFrom_none (first : CodeToken) (rest : List CodeToken) :
    piecesFrom declarationRule none (first :: rest) =
      let after := piecesFrom declarationRule (some .fresh) (first :: rest)
      ⟨some [], (after.here.map fun code => Piece.mk first code.tail).toList ++ after.pieces,
        after.unclosed⟩ := by
  simp only [piecesFrom]
  have start : PieceScan.start declarationRule first = .fresh := rfl
  rw [start]
  generalize piecesFrom declarationRule _ rest = after
  obtain ⟨here, pieces, unclosed⟩ := after
  cases here <;> rfl

/-- Declarations are what their tokens are cut into. -/
theorem Cut.pieces_eq {pieces : List Piece} (cut : Cut pieces) :
    Code.pieces declarationRule (pieces.flatMap Piece.tokens) = ⟨some [], pieces, none⟩ := by
  unfold Code.pieces
  induction cut with
  | nil => rfl
  | @last piece completes =>
      rw [List.flatMap_singleton, Piece.tokens, piecesFrom_none, ← Piece.tokens,
        piecesFrom_of_completes completes]
      rfl
  | @cons piece rest ends _ ih =>
      rw [List.flatMap_cons, Piece.tokens, List.cons_append, piecesFrom_none, ← List.cons_append,
        ← Piece.tokens, piecesFrom_of_ends ends, Code.pieces, ih]
      rfl

/-- The scan leaves what stands in parentheses where it was before. -/
theorem across_close? {depth : Nat} {code : List CodeToken} {enclosed : Enclosed}
    (closed : close? '(' ')' depth code = some enclosed) :
    (PieceScan.within (depth + 1)).across (enclosed.inside ++ [enclosed.closing]) =
      some .fresh := by
  fun_induction close? '(' ')' depth code generalizing enclosed with
  | case1 => cases closed
  | case2 depth first rest isOpening ih =>
      obtain ⟨inner, found, rfl⟩ := Option.map_eq_some_iff.mp closed
      refine (PieceScan.across_cons ?_ _).trans (ih found)
      simp [PieceScan.step, PieceScan.within, isOpening]
  | case3 first rest notOpening isClosing =>
      cases closed
      refine (PieceScan.across_cons ?_ _).trans rfl
      simp [PieceScan.step, PieceScan.within, PieceScan.fresh, notOpening, isClosing]
  | case4 first rest notOpening isClosing depth ih =>
      obtain ⟨inner, found, rfl⟩ := Option.map_eq_some_iff.mp closed
      refine (PieceScan.across_cons ?_ _).trans (ih found)
      simp [PieceScan.step, PieceScan.within, notOpening, isClosing]
  | case5 depth first rest notOpening notClosing ih =>
      obtain ⟨inner, found, rfl⟩ := Option.map_eq_some_iff.mp closed
      refine (PieceScan.across_cons ?_ _).trans (ih found)
      simp [PieceScan.step, PieceScan.within, notOpening, notClosing]

theorem across_qualifiers {code : List CodeToken} (marked : ∀ token ∈ code, token.Marked) :
    PieceScan.fresh.across (qualifiers code).1 = some .fresh := by
  fun_induction qualifiers code with
  | case1 dot name rest named more remaining split ih =>
      rw [split] at ih
      obtain ⟨isDot, isIdent⟩ := Bool.and_eq_true_iff.mp named
      rw [PieceScan.across_cons
          (PieceScan.step_fresh_of_punct (marked dot List.mem_cons_self) isDot (by decide)),
        PieceScan.across_cons (PieceScan.step_fresh_of_ident (marked name (by simp)) isIdent)]
      exact ih fun token listed => marked token (by simp [listed])
  | case2 => rfl
  | case3 => rfl

theorem across_annotation? {sign : CodeToken} {code : List CodeToken} {step : ModifierStep}
    (marked : ∀ token ∈ sign :: code, token.Marked) (isSign : sign.isPunct '@' = true)
    (found : annotation? sign code = .ok (some step)) :
    PieceScan.fresh.across step.taken = some .fresh := by
  unfold annotation? at found
  split at found
  · cases found
  · rename_i name rest
    split at found
    · rename_i named
      have qualified : PieceScan.fresh.across (sign :: name :: (qualifiers rest).1) =
        some .fresh := by
        rw [PieceScan.across_cons
            (PieceScan.step_fresh_of_punct (marked sign List.mem_cons_self) isSign (by decide)),
          PieceScan.across_cons (PieceScan.step_fresh_of_ident (marked name (by simp))
            (Bool.and_eq_true_iff.mp named).1)]
        exact across_qualifiers fun token listed => marked token (by simp [listed])
      dsimp only at found
      split at found
      · cases found
        exact qualified
      · rename_i paren arguments split
        split at found
        · rename_i isParen
          split at found
          · cases found
          · rename_i enclosed closed
            cases found
            change PieceScan.fresh.across (sign :: name :: (qualifiers rest).1 ++
              paren :: enclosed.inside ++ [enclosed.closing]) = some .fresh
            rw [List.append_assoc, PieceScan.across_of_over qualified, List.cons_append,
              PieceScan.across_cons (PieceScan.step_fresh_of_paren isParen)]
            exact across_close? (close_eq_ok closed)
        · cases found
          exact qualified
    · cases found

theorem across_wordModifier? {word : CodeToken} {rest : List CodeToken} {step : ModifierStep}
    (marked : word.Marked) (found : wordModifier? word rest = some step) :
    PieceScan.fresh.across step.taken = some .fresh := by
  unfold wordModifier? at found
  split at found
  · rename_i isIdent
    obtain ⟨modifier, _, rfl⟩ := Option.map_eq_some_iff.mp found
    exact PieceScan.across_cons (PieceScan.step_fresh_of_ident marked isIdent) []
  · cases found

theorem across_modifier? {code : List CodeToken} {step : ModifierStep}
    (marked : ∀ token ∈ code, token.Marked) (found : modifier? code = .ok (some step)) :
    PieceScan.fresh.across step.taken = some .fresh := by
  unfold modifier? at found
  split at found
  · cases found
  · rename_i first rest
    split at found
    · rename_i isSign
      exact across_annotation? marked isSign found
    · have own := marked first List.mem_cons_self
      split at found
      · rename_i _ dash word after
        split at found
        · rename_i spelled
          cases found
          simp only [Bool.and_eq_true] at spelled
          obtain ⟨⟨isNon, isDash⟩, isSealed⟩ := spelled
          rw [PieceScan.across_cons
              (PieceScan.step_fresh_of_ident own (CodeToken.isIdent_of_isWord isNon)),
            PieceScan.across_cons
              (PieceScan.step_fresh_of_punct (marked dash (by simp)) isDash (by decide)),
            PieceScan.across_cons (PieceScan.step_fresh_of_ident (marked word (by simp))
              (CodeToken.isIdent_of_isWord isSealed))]
          rfl
        · exact across_wordModifier? own (Except.ok.inj found)
      · exact across_wordModifier? own (Except.ok.inj found)

/-- The scan of a declaration leaves its modifiers as it met them. -/
theorem across_modifiers {code : List CodeToken} {run : ModifierRun}
    (marked : ∀ token ∈ code, token.Marked) (read : modifiers code = .ok run) :
    PieceScan.fresh.across run.taken = some .fresh := by
  fun_induction modifiers code generalizing run with
  | case1 => cases read
  | case2 =>
      cases read
      rfl
  | case3 => cases read
  | case4 code step found inner more ih =>
      cases read
      obtain ⟨joined, _⟩ := append_of_modifier? found
      change PieceScan.fresh.across (step.taken ++ inner.taken) = some .fresh
      rw [PieceScan.across_of_over (across_modifier? marked found)]
      refine ih (fun token listed => marked token ?_) more
      rw [← joined]
      exact List.mem_append_right _ listed

theorem Completes.modifiers {code : List CodeToken} {run : ModifierRun}
    (completes : Completes .fresh code) (marked : ∀ token ∈ code, token.Marked)
    (read : modifiers code = .ok run) : Completes .fresh run.rest := by
  rw [← (append_of_modifiers read).1] at completes
  exact completes.across (across_modifiers marked read)

end Code

end JavaRecords
