import JavaRecords.Proofs.Code.Clean

set_option autoImplicit false

namespace JavaRecords

instance (text : Text) : Decidable text.Blank := List.decidableBAll (Text.isSpace · = true) text

/-- A name that Java takes as it is: an ASCII letter, and letters and digits after it. -/
def Text.isName : Text → Bool
  | [] => false
  | c :: rest => Text.isAsciiLetter c && rest.all Text.isAlphanumeric

theorem Text.exists_of_isName {text : Text} (named : text.isName = true) :
    ∃ c rest, text = c :: rest ∧ Text.isAsciiLetter c = true := by
  cases text with
  | nil => cases named
  | cons c rest =>
      simp only [isName, Bool.and_eq_true] at named
      exact ⟨c, rest, rfl, named.1⟩

theorem Text.isAsciiLetter_bounds {c : Char} (letter : isAsciiLetter c = true) :
    65 ≤ c.toNat ∧ c.toNat ≤ 122 := by
  simp only [isAsciiLetter, Bool.or_eq_true, Bool.and_eq_true, decide_eq_true_eq] at letter
  omega

/-- A character that stands below the letters is none. -/
theorem Text.ne_of_isAsciiLetter {c d : Char} (letter : isAsciiLetter c = true)
    (low : d.toNat < 65) : c ≠ d := by
  rintro rfl
  have bounds := isAsciiLetter_bounds letter
  omega

theorem Text.isSpace_of_isAsciiLetter {c : Char} (letter : isAsciiLetter c = true) :
    isSpace c = false := by
  have bounds := isAsciiLetter_bounds letter
  have ascii : c.toNat < 0x80 := by omega
  have noSpace : c ≠ ' ' := ne_of_isAsciiLetter letter (by decide)
  have above : ¬ c.toNat ≤ 13 := by omega
  simp [isSpace, ascii, noSpace, above]

theorem Text.isDigit_of_isAsciiLetter {c : Char} (letter : isAsciiLetter c = true) :
    isDigit c = false := by
  have bounds := isAsciiLetter_bounds letter
  have above : ¬ c.toNat ≤ 57 := by omega
  simp [isDigit, above]

theorem Text.isLetter_of_isAsciiLetter {c : Char} (letter : isAsciiLetter c = true) :
    isLetter c = true := by
  have bounds := isAsciiLetter_bounds letter
  have ascii : c.toNat < 0x80 := by omega
  simp [isLetter, ascii, letter]

namespace Token

def word (space text : Text) : Token := ⟨.ident, space, text, 0⟩

/-- An operator or separator of a layout, after `space`. -/
def mark (space : Text) (c : Char) : Token := ⟨.punct, space, [c], 0⟩

@[simp] theorem text_word (space text : Text) : (word space text).text = text := rfl

@[simp] theorem space_word (space text : Text) : (word space text).space = space := rfl

@[simp] theorem text_mark (space : Text) (c : Char) : (mark space c).text = [c] := rfl

@[simp] theorem space_mark (space : Text) (c : Char) : (mark space c).space = space := rfl

@[simp] theorem isPunct_word (space text : Text) (c : Char) :
    (word space text).isPunct c = false := rfl

@[simp] theorem isPunct_mark (space : Text) (c d : Char) :
    (mark space c).isPunct d = (c == d) := by
  simp [isPunct, mark]

@[simp] theorem isComment_word (space text : Text) : (word space text).isComment = false := rfl

@[simp] theorem isComment_mark (space : Text) (c : Char) : (mark space c).isComment = false := rfl

/-- A text that does not continue a name. -/
def Ends (text : Text) : Prop := text.head?.any isIdentPart = false

theorem ends_cons {c : Char} (free : isIdentPart c = false) (rest : Text) : Ends (c :: rest) := by
  simp [Ends, free]

/-- A name is read up to a character that cannot continue it. -/
theorem readsAs_word {text tail : Text} (named : text.isName = true) (ended : Ends tail) :
    ReadsAs .ident text tail := by
  cases text with
  | nil => cases named
  | cons c rest =>
      simp only [Text.isName, Bool.and_eq_true, List.all_eq_true] at named
      obtain ⟨letter, others⟩ := named
      have low : ∀ d ∈ ['/', '"', '\'', '.'], d.toNat < 65 := by simp
      have other : ∀ d ∈ ['/', '"', '\'', '.'], c ≠ d := fun d listed =>
        Text.ne_of_isAsciiLetter letter (low d listed)
      have starts : isIdentStart c = true := by
        simp [isIdentStart, Text.isLetter_of_isAsciiLetter letter]
      refine ⟨c, rest, rfl, Text.isSpace_of_isAsciiLetter letter, ?_⟩
      rw [readToken_eq, if_neg fun slash => other '/' (by simp) slash.1,
        if_neg fun slash => other '/' (by simp) slash.1, if_neg (other '"' (by simp)),
        if_neg (other '\'' (by simp)), if_neg, if_pos starts]
      · refine (run_eq_iff _ _ _ _ _ _).mpr ⟨rfl, fun d listed => ?_, ended⟩
        simp [isIdentPart, others d listed]
      · simp [Text.isDigit_of_isAsciiLetter letter, other '.' (by simp)]

theorem readsAs_dot {tail : Text} (ended : tail.head?.any Text.isDigit = false) :
    ReadsAs .punct ['.'] tail := by
  refine ⟨'.', [], rfl, by decide, ?_⟩
  rw [readToken_eq]
  simp [ended, show Text.isDigit '.' = false by decide, show isIdentStart '.' = false by decide]

theorem chain_word {space text tail : Text} {rest : List Token} (blank : space.Blank)
    (named : text.isName = true) (ended : Ends (spell rest ++ tail))
    (chain : Chain rest tail) : Chain (word space text :: rest) tail :=
  ⟨blank, readsAs_word named ended, chain⟩

theorem chain_mark {space tail : Text} {c : Char} {rest : List Token} (blank : space.Blank)
    (isMark : isMark c = true) (chain : Chain rest tail) : Chain (mark space c :: rest) tail :=
  ⟨blank, readsAs_mark isMark _, chain⟩

/-- Tokens that are read back from what they spell, whatever follows. -/
def Sealed (tokens : List Token) : Prop := ∀ tail, Chain tokens tail

theorem sealed_nil : Sealed [] := fun _ => trivial

theorem Sealed.append {left right : List Token} (first : Sealed left) (second : Sealed right) :
    Sealed (left ++ right) :=
  fun _ => chain_append.mpr ⟨first _, second _⟩

theorem sealed_mark {space : Text} {c : Char} (blank : space.Blank) (isMark : isMark c = true) :
    Sealed [mark space c] :=
  fun _ => chain_mark blank isMark trivial

theorem sealed_flatMap {α : Type} {items : List α} {tokens : α → List Token}
    (each : ∀ item ∈ items, Sealed (tokens item)) : Sealed (items.flatMap tokens) := by
  induction items with
  | nil => exact sealed_nil
  | cons item rest ih =>
      rw [List.flatMap_cons]
      exact (each item List.mem_cons_self).append
        (ih fun other listed => each other (List.mem_cons_of_mem _ listed))

end Token

/-- The code token of a token without comments, if an equals sign is an assignment. -/
def CodeToken.ofToken (token : Token) : CodeToken :=
  ⟨token, [], if token.isPunct '=' then some .assign else none, false⟩

namespace Code

def laid (offset : Nat) (tokens : List Token) : List CodeToken :=
  (Token.restart offset tokens).map CodeToken.ofToken

@[simp] theorem laid_nil (offset : Nat) : laid offset [] = [] := rfl

theorem laid_append (offset : Nat) (left right : List Token) : laid offset (left ++ right) =
    laid offset left ++ laid (offset + Text.byteSize (Token.spell left)) right := by
  rw [laid, Token.restart_append, List.map_append]
  rfl

end Code

namespace CodeToken

def ofWord (space text : Text) (start : Nat) : CodeToken := ofToken ⟨.ident, space, text, start⟩

/-- An operator or separator in the code of a layout. -/
def ofMark (space : Text) (c : Char) (start : Nat) : CodeToken :=
  ofToken ⟨.punct, space, [c], start⟩

section

variable (space text : Text) (start : Nat) (c d : Char)

@[simp] theorem isPunct_ofWord : (ofWord space text start).isPunct c = false := rfl

@[simp] theorem isIdent_ofWord : (ofWord space text start).isIdent = true := rfl

@[simp] theorem isWord_ofWord (keyword : String) :
    (ofWord space text start).isWord keyword = (text == keyword.toList) := by
  simp [isWord, Token.isWord, ofWord, ofToken]

@[simp] theorem text_ofWord : (ofWord space text start).text = text := rfl

@[simp] theorem lead_ofWord : (ofWord space text start).lead = space := rfl

@[simp] theorem comments_ofWord : (ofWord space text start).comments = [] := rfl

@[simp] theorem assign_ofWord : (ofWord space text start).assign = none := rfl

@[simp] theorem arrow_ofWord : (ofWord space text start).arrow = false := rfl

@[simp] theorem isPunct_ofMark : (ofMark space c start).isPunct d = (c == d) := by
  simp [isPunct, Token.isPunct, ofMark, ofToken]

@[simp] theorem isIdent_ofMark : (ofMark space c start).isIdent = false := rfl

@[simp] theorem isWord_ofMark (keyword : String) :
    (ofMark space c start).isWord keyword = false := rfl

@[simp] theorem text_ofMark : (ofMark space c start).text = [c] := rfl

@[simp] theorem lead_ofMark : (ofMark space c start).lead = space := rfl

@[simp] theorem comments_ofMark : (ofMark space c start).comments = [] := rfl

@[simp] theorem assign_ofMark :
    (ofMark space c start).assign = if c = '=' then some .assign else none := by
  simp [ofMark, ofToken, Token.isPunct]

@[simp] theorem arrow_ofMark : (ofMark space c start).arrow = false := rfl

end

end CodeToken

namespace Code

variable (offset : Nat) (space : Text) (rest : List Token)

@[simp] theorem laid_word (text : Text) : laid offset (Token.word space text :: rest) =
    CodeToken.ofWord space text (offset + Text.byteSize space) ::
      laid (offset + Text.byteSize space + Text.byteSize text) rest := rfl

@[simp] theorem laid_mark (c : Char) : laid offset (Token.mark space c :: rest) =
    CodeToken.ofMark space c (offset + Text.byteSize space) ::
      laid (offset + Text.byteSize space + Text.byteSize [c]) rest := rfl

theorem flatMap_lead_text_laid (tokens : List Token) :
    ((laid offset tokens).flatMap fun code => code.lead ++ code.text) = Token.spell tokens := by
  induction tokens generalizing offset with
  | nil => rfl
  | cons token rest ih => exact congrArg (token.space ++ token.text ++ ·) (ih _)

theorem text_laid (first : Token) :
    text (laid offset (first :: rest)) = first.text ++ Token.spell rest :=
  congrArg (first.text ++ ·) (flatMap_lead_text_laid _ rest)

end Code

namespace Token

/-- Tokens whose code does not depend on what stands around them: none is a comment, their equals
signs are assignments, and none of them is part of an arrow. -/
structure Settled (tokens : List Token) : Prop where
  noComment : ∀ token ∈ tokens, token.isComment = false
  noMinus : ∀ token ∈ tokens, token.isPunct '-' = false
  marks : ∀ offset before bound, (∀ previous ∈ before.head?, previous.isPunct '-' = false) →
    Code.markOperators before ((restart offset tokens).map ([], ·) ++ bound) =
      Code.laid offset tokens ++
        Code.markOperators ((restart offset tokens).reverse ++ before) bound

theorem mem_restart {offset : Nat} {tokens : List Token} {token : Token}
    (listed : token ∈ restart offset tokens) : ∃ own ∈ tokens, ∃ start, token =
      { own with start } := by
  induction tokens generalizing offset with
  | nil => cases listed
  | cons first rest ih =>
      rcases List.mem_cons.mp listed with rfl | later
      · exact ⟨first, List.mem_cons_self, _, rfl⟩
      · obtain ⟨own, inside, start, same⟩ := ih later
        exact ⟨own, List.mem_cons_of_mem _ inside, start, same⟩

/-- Behind tokens without a minus sign stands none. -/
theorem no_minus_before {offset : Nat} {tokens before : List Token}
    (noMinus : ∀ token ∈ tokens, token.isPunct '-' = false)
    (first : ∀ previous ∈ before.head?, previous.isPunct '-' = false) :
    ∀ previous ∈ ((restart offset tokens).reverse ++ before).head?,
      previous.isPunct '-' = false := by
  intro previous isPrevious
  rw [List.head?_append] at isPrevious
  cases last : (restart offset tokens).reverse.head? with
  | none =>
      rw [last] at isPrevious
      exact first previous isPrevious
  | some token =>
      rw [last] at isPrevious
      cases isPrevious
      obtain ⟨own, inside, start, rfl⟩ := mem_restart
        (List.mem_reverse.mp (List.mem_of_mem_head? last))
      exact noMinus own inside

theorem settled_nil : Settled [] where
  noComment _ listed := absurd listed List.not_mem_nil
  noMinus _ listed := absurd listed List.not_mem_nil
  marks _ _ _ _ := rfl

theorem Settled.append {left right : List Token} (first : Settled left) (second : Settled right) :
    Settled (left ++ right) where
  noComment token listed :=
    (List.mem_append.mp listed).elim (first.noComment token) (second.noComment token)
  noMinus token listed := (List.mem_append.mp listed).elim (first.noMinus token)
    (second.noMinus token)
  marks offset before bound before_ := by
    rw [restart_append, List.map_append, List.append_assoc, first.marks _ _ _ before_,
      second.marks _ _ _ (no_minus_before first.noMinus before_), Code.laid_append,
      List.reverse_append]
    simp only [List.append_assoc]

theorem settled_flatMap {α : Type} {items : List α} {tokens : α → List Token}
    (each : ∀ item ∈ items, Settled (tokens item)) : Settled (items.flatMap tokens) := by
  induction items with
  | nil => exact settled_nil
  | cons item rest ih =>
      rw [List.flatMap_cons]
      exact (each item List.mem_cons_self).append
        (ih fun other listed => each other (List.mem_cons_of_mem _ listed))

/-- A token that is no equals sign after one that is no minus sign is no operator of several
characters. -/
theorem ofToken_eq {before : List Token} (token : Token) (after : List Token)
    (noEquals : token.isPunct '=' = false)
    (first : ∀ previous ∈ before.head?, previous.isPunct '-' = false) :
    (⟨token, [], token.assignOp? before after, token.endsArrow before⟩ : CodeToken) =
      CodeToken.ofToken token := by
  have noArrow : token.endsArrow before = false := by
    cases before with
    | nil => simp [endsArrow]
    | cons previous earlier => simp [endsArrow, first previous rfl]
  rw [noArrow]
  simp [CodeToken.ofToken, assignOp?, noEquals]

theorem settled_single {token : Token} (code : token.isComment = false)
    (noEquals : token.isPunct '=' = false) (noMinus : token.isPunct '-' = false) :
    Settled [token] where
  noComment := by simpa using code
  noMinus := by simpa using noMinus
  marks offset before bound first := by
    have own := ofToken_eq { token with start := offset + Text.byteSize token.space }
      (bound.map Prod.snd) noEquals first
    exact congrArg (· :: Code.markOperators (_ :: before) bound) own

theorem settled_word (space text : Text) : Settled [word space text] :=
  settled_single rfl rfl rfl

theorem settled_mark {space : Text} {c : Char} (noEquals : c ≠ '=') (noMinus : c ≠ '-') :
    Settled [mark space c] :=
  settled_single rfl (by simpa using noEquals) (by simpa using noMinus)

/-- Tokens without equals and minus signs hold no operator of several characters. -/
theorem settled_of_plain {tokens : List Token}
    (plain : ∀ token ∈ tokens, token.isComment = false ∧ token.isPunct '=' = false ∧
      token.isPunct '-' = false) : Settled tokens := by
  induction tokens with
  | nil => exact settled_nil
  | cons token rest ih =>
      obtain ⟨code, noEquals, noMinus⟩ := plain token List.mem_cons_self
      exact (settled_single code noEquals noMinus).append
        (ih fun other listed => plain other (List.mem_cons_of_mem _ listed))

/-- An equals sign between two words is an assignment. -/
theorem settled_assignment (space left right : Text) :
    Settled [word space left, mark [' '] '=', word [' '] right] where
  noComment := by simp
  noMinus := by simp
  marks offset before bound _ := by
    simp [restart, word, mark, Code.markOperators, Code.laid, CodeToken.ofToken, assignOp?,
      endsArrow, isPunct]

end Token

namespace Code

def withComments (comments : List Token) : List CodeToken → List CodeToken
  | [] => []
  | first :: rest => { first with comments } :: rest

theorem bindComments_of_code {tokens : List Token}
    (code : ∀ token ∈ tokens, token.isComment = false) :
    bindComments [] tokens = (tokens.map ([], ·), []) := by
  induction tokens with
  | nil => rfl
  | cons token rest ih =>
      rw [bindComments, code token List.mem_cons_self,
        ih fun other listed => code other (List.mem_cons_of_mem _ listed)]
      rfl

theorem bindComments_comments {comments : List Token} (pending tokens : List Token)
    (all : ∀ comment ∈ comments, comment.isComment = true) :
    bindComments pending (comments ++ tokens) = bindComments (pending ++ comments) tokens := by
  induction comments generalizing pending with
  | nil => rw [List.nil_append, List.append_nil]
  | cons comment rest ih =>
      rw [List.cons_append, bindComments, if_pos (all comment List.mem_cons_self),
        ih _ fun other listed => all other (List.mem_cons_of_mem _ listed)]
      simp

/-- The code of a layout behind comments. -/
theorem ofTokens_laid {comments tokens : List Token} (offset : Nat)
    (all : ∀ comment ∈ comments, comment.isComment = true) (settled : Token.Settled tokens)
    (nonempty : tokens ≠ []) : Code.ofTokens (comments ++ Token.restart offset tokens) =
      ⟨withComments comments (laid offset tokens), []⟩ := by
  have code : ∀ token ∈ Token.restart offset tokens, token.isComment = false := by
    intro token listed
    obtain ⟨own, inside, start, rfl⟩ := Token.mem_restart listed
    exact settled.noComment own inside
  have marks := settled.marks offset [] [] (fun _ absent => by cases absent)
  rw [List.append_nil, markOperators, List.append_nil] at marks
  cases tokens with
  | nil => exact absurd rfl nonempty
  | cons first rest =>
      have later := bindComments_of_code fun token listed =>
        code token (List.mem_cons_of_mem _ listed)
      rw [← marks, ofTokens, bindComments_comments _ _ all]
      rw [List.nil_append, Token.restart, bindComments, code _ List.mem_cons_self, later]
      rfl

end Code

end JavaRecords
