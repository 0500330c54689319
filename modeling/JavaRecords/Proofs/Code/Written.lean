import JavaRecords.Code.Writes
import JavaRecords.Proofs.Code.Operators

set_option autoImplicit false

namespace JavaRecords

def AssignOp.assignments : List AssignOp :=
  [.assign, .add, .sub, .mul, .div, .rem, .and, .or, .xor, .shl, .shr, .ushr]

namespace Token

/-- Tokens begin with the characters of a word, one operator token each, with nothing
between them. -/
def spells : Text → List Token → Bool
  | [], _ => true
  | _ :: _, [] => false
  | c :: word, token :: rest =>
      token.isPunct c && (word.isEmpty || rest.head?.any token.touches) && spells word rest

/-- Tokens begin with an operator that assigns, and no `=` follows it at once. -/
def Begins (op : AssignOp) (tokens : List Token) : Prop :=
  op ∈ AssignOp.assignments ∧ spells op.spelling.toList tokens = true ∧
    spells (op.spelling.toList ++ ['=']) tokens = false

/-- Tokens begin with an increment or a decrement. -/
def Steps (tokens : List Token) : Prop :=
  spells "++".toList tokens = true ∨ spells "--".toList tokens = true

/-- What stands before some tokens is written by an operator behind it. -/
def Assigns (tokens : List Token) : Prop := (∃ op, Begins op tokens) ∨ Steps tokens

/-- What stands between two runs of tokens is written: by an operator behind it, or by an increment
or a decrement in front of it. -/
def Writes (before after : List Token) : Prop :=
  Assigns after ∨ ∃ earlier first second, before = earlier ++ [first, second] ∧
    Steps [first, second]

/-- Tokens write a field of `this`. -/
def WritesField (tokens : List Token) (name : Text) : Prop :=
  ∃ before this dot field after, tokens = before ++ this :: dot :: field :: after ∧
    this.isWord "this".toList = true ∧ dot.isPunct '.' = true ∧ field.isWord name = true ∧
    Writes before after

/-- Tokens have a name with no dot in front of it and an operator behind it that writes it. -/
def WritesName (tokens : List Token) (name : Text) : Prop :=
  ∃ before target after, tokens = before ++ target :: after ∧ target.isWord name = true ∧
    (∀ last ∈ before.getLast?, last.isPunct '.' = false) ∧ Assigns after

instance (tokens : List Token) : Decidable (Assigns tokens) :=
  inferInstanceAs (Decidable ((∃ op, op ∈ AssignOp.assignments ∧
    spells op.spelling.toList tokens = true ∧
    spells (op.spelling.toList ++ ['=']) tokens = false) ∨
    spells "++".toList tokens = true ∨ spells "--".toList tokens = true))

/-- Whether some tokens behind the token `last` write a name. -/
def writesNameFrom (name : Text) (last : Option Token) : List Token → Bool
  | [] => false
  | target :: after =>
      (target.isWord name && !last.any (isPunct · '.') && decide (Assigns after)) ||
        writesNameFrom name (some target) after

theorem writesNameFrom_iff (name : Text) (last : Option Token) (tokens : List Token) :
    writesNameFrom name last tokens = true ↔ ∃ before target after,
      tokens = before ++ target :: after ∧ target.isWord name = true ∧
        (∀ previous ∈ before.getLast?.or last, previous.isPunct '.' = false) ∧ Assigns after := by
  induction tokens generalizing last with
  | nil => simp [writesNameFrom]
  | cons first rest ih =>
      rw [writesNameFrom, Bool.or_eq_true, ih]
      constructor
      · rintro (here | ⟨before, target, after, rfl, isName, undotted, assigns⟩)
        · simp only [Bool.and_eq_true, decide_eq_true_eq, Bool.not_eq_true'] at here
          refine ⟨[], first, rest, rfl, here.1.1, ?_, here.2⟩
          rintro previous isLast
          cases isLast
          exact here.1.2
        · refine ⟨first :: before, target, after, rfl, isName, ?_, assigns⟩
          rwa [List.getLast?_cons, Option.some_or, ← Option.or_some]
      · rintro ⟨_ | ⟨_, before⟩, target, after, split, isName, undotted, assigns⟩
        · cases split
          left
          simp only [isName, assigns, Bool.true_and, Bool.and_true, decide_true, Bool.not_eq_true']
          cases last with
          | none => rfl
          | some previous => exact undotted previous rfl
        · cases split
          refine Or.inr ⟨before, target, after, rfl, isName, ?_, assigns⟩
          rwa [List.getLast?_cons, Option.some_or, ← Option.or_some] at undotted

theorem writesName_iff (tokens : List Token) (name : Text) :
    WritesName tokens name ↔ writesNameFrom name none tokens = true := by
  simp only [writesNameFrom_iff, Option.or_none, WritesName]

instance (tokens : List Token) (name : Text) : Decidable (WritesName tokens name) :=
  decidable_of_iff _ (writesName_iff tokens name).symm

end Token

/-- The characters of an operator before its last one. -/
def AssignOp.front (op : AssignOp) : Text := op.spelling.toList.dropLast

theorem AssignOp.spelling_eq : ∀ op ∈ assignments,
    op.spelling.toList = op.front ++ ['='] ∧ op.front.length = op.lead := by
  decide

theorem AssignOp.front_of_ofPunct? {c : Char} {op : AssignOp} (found : ofPunct? c = some op) :
    op ∈ assignments ∧ op.front = [c] := by
  unfold ofPunct? at found
  split at found <;> cases found <;> exact ⟨by decide, rfl⟩

/-- An operator that assigns is plain, has one character before `=`, or shifts. -/
theorem AssignOp.cases_assignments {op : AssignOp} (assigns : op ∈ assignments) :
    op = .assign ∨ (∃ c, ofPunct? c = some op) ∨ op = .shl ∨ op = .shr ∨ op = .ushr := by
  cases op with
  | assign => exact Or.inl rfl
  | shl => exact Or.inr (Or.inr (Or.inl rfl))
  | shr => exact Or.inr (Or.inr (Or.inr (Or.inl rfl)))
  | ushr => exact Or.inr (Or.inr (Or.inr (Or.inr rfl)))
  | add => exact Or.inr (Or.inl ⟨'+', rfl⟩)
  | sub => exact Or.inr (Or.inl ⟨'-', rfl⟩)
  | mul => exact Or.inr (Or.inl ⟨'*', rfl⟩)
  | div => exact Or.inr (Or.inl ⟨'/', rfl⟩)
  | rem => exact Or.inr (Or.inl ⟨'%', rfl⟩)
  | and => exact Or.inr (Or.inl ⟨'&', rfl⟩)
  | or => exact Or.inr (Or.inl ⟨'|', rfl⟩)
  | xor => exact Or.inr (Or.inl ⟨'^', rfl⟩)
  | increment => exact absurd assigns (by decide)
  | decrement => exact absurd assigns (by decide)

namespace Token

variable {before after : List Token} {token first second third : Token} {op : AssignOp} {c d : Char}

theorem isPunct_iff : token.isPunct c = true ↔ token.kind = .punct ∧ token.text = [c] := by
  simp [isPunct]

theorem kind_ne_punct (isIdent : token.isIdent = true) : token.kind ≠ .punct := by
  rw [show token.kind = .ident from eq_of_beq isIdent]
  decide

/-- Tokens spell the characters of a word, each token touching the next and the last one touching
`next`. -/
def spellsTo (next : Token) : Text → List Token → Bool
  | [], taken => taken.isEmpty
  | _ :: _, [] => false
  | c :: word, token :: rest =>
      token.isPunct c && token.touches (rest.headD next) && spellsTo next word rest

theorem spells_append (word : Text) (c : Char) (more : Text) (taken : List Token) (next : Token)
    (after : List Token) (size : taken.length = word.length) :
    spells (word ++ c :: more) (taken ++ next :: after) =
      (spellsTo next word taken && spells (c :: more) (next :: after)) := by
  induction word generalizing taken with
  | nil =>
      cases taken with
      | nil => rfl
      | cons _ _ => cases size
  | cons d word ih =>
      cases taken with
      | nil => cases size
      | cons token rest =>
          have later := ih rest (by simpa using size)
          rw [List.cons_append, List.cons_append, spells, later, spellsTo]
          cases word <;> cases rest <;> simp [Bool.and_assoc]

/-- A token `=` that no other one follows at once. -/
def endsAssign (token : Token) (after : List Token) : Bool :=
  token.isPunct '=' && !after.head?.any fun next => next.isPunct '=' && token.touches next

theorem spells_equals (token : Token) (after : List Token) :
    (spells ['='] (token :: after) && !spells ['=', '='] (token :: after)) =
      endsAssign token after := by
  cases after with
  | nil => simp [spells, endsAssign]
  | cons next rest =>
      simp only [spells, endsAssign, List.isEmpty_nil, List.isEmpty_cons, List.head?_cons,
        Option.any_some]
      cases token.isPunct '=' <;> cases next.isPunct '=' <;> cases token.touches next <;> rfl

/-- Where an operator ends. -/
theorem begins_append_iff (taken : List Token) (token : Token) (after : List Token)
    (assigns : op ∈ AssignOp.assignments) (size : taken.length = op.lead) :
    Begins op (taken ++ token :: after) ↔
      spellsTo token op.front taken = true ∧ endsAssign token after = true := by
  obtain ⟨spelled, lead⟩ := AssignOp.spelling_eq op assigns
  rw [← lead] at size
  have whole := spells_append op.front '=' [] taken token after size
  have longer := spells_append op.front '=' ['='] taken token after size
  have more : op.front ++ ['='] ++ ['='] = op.front ++ '=' :: ['='] := by simp
  rw [Begins, spelled, whole, more, longer, ← spells_equals]
  simp only [assigns, true_and, Bool.and_eq_true, Bool.and_eq_false_iff, Bool.not_eq_true']
  constructor
  · rintro ⟨⟨linked, equals⟩, apart⟩
    exact ⟨linked, equals, apart.resolve_left (by simp [linked])⟩
  · rintro ⟨linked, equals, apart⟩
    exact ⟨⟨linked, equals⟩, Or.inr apart⟩

theorem touchingRun_eq_zero (apart : ∀ previous ∈ before.head?, previous.kind ≠ .punct)
    (c : Char) (token : Token) : touchingRun c token before = 0 := by
  cases before with
  | nil => rfl
  | cons previous earlier =>
      have other : previous.isPunct c = false := by
        rw [isPunct, Bool.and_eq_false_iff]
        exact Or.inl (beq_eq_false_iff_ne.mpr (apart previous rfl))
      simp [touchingRun, other]

def assignEnded? (token : Token) : List Token → Option AssignOp
  | [] => some .assign
  | previous :: earlier =>
      if previous.kind == .punct && previous.touches token then assignAfterPunct previous earlier
      else some .assign

theorem assignOp?_eq (before : List Token) (token : Token) (after : List Token) :
    assignOp? before token after =
      if endsAssign token after then assignEnded? token before else none := by
  unfold assignOp? endsAssign
  cases token.isPunct '=' <;> cases after.head?.any _ <;> cases before <;> rfl

theorem length_of_spellsTo {next : Token} {word : Text} {taken : List Token}
    (spelled : spellsTo next word taken = true) : taken.length = word.length := by
  induction word generalizing taken with
  | nil => simpa [spellsTo] using spelled
  | cons c word ih =>
      cases taken with
      | nil => cases spelled
      | cons first rest =>
          simp only [spellsTo, Bool.and_eq_true] at spelled
          simp [ih spelled.2]

theorem assignAfterPunct_eq_some {previous : Token} {earlier : List Token}
    (found : assignAfterPunct previous earlier = some op) :
    op = .assign ∨ (∃ c, AssignOp.ofPunct? c = some op ∧ previous.text = [c]) ∨
      (op = .shl ∧ previous.text = ['<'] ∧ 1 ≤ touchingRun '<' previous earlier) ∨
      (op = .shr ∧ previous.text = ['>'] ∧ touchingRun '>' previous earlier = 1) ∨
      (op = .ushr ∧ previous.text = ['>'] ∧ touchingRun '>' previous earlier = 2) := by
  unfold assignAfterPunct at found
  split at found
  · cases found
  · cases found
  · rename_i isText
    split at found
    · rename_i run
      cases found
      exact Or.inr (Or.inr (Or.inl ⟨rfl, isText, run⟩))
    · cases found
  · rename_i isText
    split at found
    · rename_i run
      cases found
      exact Or.inr (Or.inr (Or.inr (Or.inl ⟨rfl, isText, run⟩)))
    · rename_i run
      cases found
      exact Or.inr (Or.inr (Or.inr (Or.inr ⟨rfl, isText, run⟩)))
    · cases found
  · rename_i c _ _ _ _ isText
    cases compound : AssignOp.ofPunct? c with
    | none =>
        rw [compound] at found
        cases found
        exact Or.inl rfl
    | some other =>
        rw [compound] at found
        cases found
        exact Or.inr (Or.inl ⟨c, compound, isText⟩)
  · cases found
    exact Or.inl rfl

theorem assignAfterPunct_of_ofPunct? {previous : Token} (earlier : List Token)
    (found : AssignOp.ofPunct? c = some op) (isPunct : previous.isPunct c = true) :
    assignAfterPunct previous earlier = some op := by
  have text := (isPunct_iff.mp isPunct).2
  unfold AssignOp.ofPunct? at found
  split at found <;> cases found <;> simp [assignAfterPunct, text, AssignOp.ofPunct?]

theorem spellsTo_concat (word : Text) (taken : List Token) (last next : Token) :
    spellsTo next (word ++ [c]) (taken ++ [last]) =
      (spellsTo last word taken && (last.isPunct c && last.touches next)) := by
  induction word generalizing taken with
  | nil =>
      cases taken with
      | nil => simp [spellsTo]
      | cons first rest => cases rest <;> simp [spellsTo]
  | cons d word ih =>
      cases taken with
      | nil => cases word <;> simp [spellsTo]
      | cons first rest =>
          rw [List.cons_append, List.cons_append, spellsTo, ih, spellsTo]
          cases rest <;> simp [Bool.and_assoc]

/-- The run of one character in front of a token does not reach over a name. -/
theorem touchingRun_le (apart : ∀ previous ∈ before.head?, previous.kind ≠ .punct) (c : Char)
    (token : Token) (taken : List Token) :
    touchingRun c token (taken ++ before) ≤ taken.length := by
  induction taken generalizing token with
  | nil => exact Nat.le_of_eq (touchingRun_eq_zero apart c token)
  | cons previous earlier ih =>
      rw [List.cons_append, touchingRun, List.length_cons]
      split
      · exact Nat.succ_le_succ (ih previous)
      · exact Nat.zero_le _

/-- The run of one character in front of a token reaches to a name if the tokens between the two
spell nothing else. -/
theorem spellsTo_replicate_iff (apart : ∀ previous ∈ before.head?, previous.kind ≠ .punct)
    (c : Char) (token : Token) (taken : List Token) :
    spellsTo token (List.replicate taken.length c) taken.reverse = true ↔
      touchingRun c token (taken ++ before) = taken.length := by
  induction taken generalizing token with
  | nil => simp [spellsTo, touchingRun_eq_zero apart]
  | cons previous earlier ih =>
      rw [List.length_cons, List.reverse_cons, List.replicate_succ', spellsTo_concat,
        Bool.and_eq_true, ih, List.cons_append, touchingRun]
      split
      · rename_i links
        simp [links]
      · rename_i links
        simp [links]

/-- An operator that repeats a character is spelled by a run of the character. -/
theorem spellsTo_front_iff (apart : ∀ previous ∈ before.head?, previous.kind ≠ .punct) (c : Char)
    (front : op.front = List.replicate op.lead c) {earlier : List Token} {last : Token}
    (size : op.lead = earlier.length + 1) :
    spellsTo token op.front (earlier ++ [last]) = true ↔
      touchingRun c last (earlier.reverse ++ before) = earlier.length ∧
        last.isPunct c = true ∧ last.touches token = true := by
  have run := spellsTo_replicate_iff apart c last earlier.reverse
  rw [List.length_reverse, List.reverse_reverse] at run
  rw [front, size, List.replicate_succ', spellsTo_concat, Bool.and_eq_true, Bool.and_eq_true, run]

/-- What the tokens between a name and `=` make is what they spell. -/
theorem assignEnded?_eq_some (apart : ∀ previous ∈ before.head?, previous.kind ≠ .punct)
    {taken : List Token} (found : assignEnded? token (taken.reverse ++ before) = some op)
    (size : op.lead = taken.length) :
    op ∈ AssignOp.assignments ∧ spellsTo token op.front taken = true := by
  rcases List.eq_nil_or_concat taken with rfl | ⟨earlier, last, rfl⟩
  · cases op <;> cases size
    exact ⟨by decide, rfl⟩
  · rw [List.concat_eq_append, List.reverse_append, List.reverse_singleton, List.singleton_append,
      List.cons_append, assignEnded?] at found
    rw [List.concat_eq_append] at size ⊢
    rw [List.length_append, List.length_singleton] at size
    split at found
    · rename_i linked
      obtain ⟨kind, touches⟩ := Bool.and_eq_true_iff.mp linked
      have isPunct : ∀ {c : Char}, last.text = [c] → last.isPunct c = true := fun text =>
        isPunct_iff.mpr ⟨eq_of_beq kind, text⟩
      have short := touchingRun_le apart '<' last earlier.reverse
      rw [List.length_reverse] at short
      rcases assignAfterPunct_eq_some found with
        rfl | ⟨c, compound, text⟩ | ⟨rfl, text, run⟩ | ⟨rfl, text, run⟩ | ⟨rfl, text, run⟩
      · cases size
      · obtain ⟨assigns, front⟩ := AssignOp.front_of_ofPunct? compound
        have lead := (AssignOp.spelling_eq op assigns).2
        rw [front, size] at lead
        obtain rfl := List.length_eq_zero_iff.mp (Nat.succ.inj lead).symm
        refine ⟨assigns, ?_⟩
        rw [front]
        simp [spellsTo, isPunct text, touches]
      · have one : 1 = earlier.length := Nat.succ.inj size
        exact ⟨by decide, (spellsTo_front_iff apart '<' rfl size).mpr
          ⟨Nat.le_antisymm short (one ▸ run), isPunct text, touches⟩⟩
      · exact ⟨by decide, (spellsTo_front_iff apart '>' rfl size).mpr
          ⟨run.trans (Nat.succ.inj size), isPunct text, touches⟩⟩
      · exact ⟨by decide, (spellsTo_front_iff apart '>' rfl size).mpr
          ⟨run.trans (Nat.succ.inj size), isPunct text, touches⟩⟩
    · cases found
      cases size

theorem assignEnded?_of_spellsTo (apart : ∀ previous ∈ before.head?, previous.kind ≠ .punct)
    {taken : List Token} (assigns : op ∈ AssignOp.assignments)
    (spelled : spellsTo token op.front taken = true) :
    assignEnded? token (taken.reverse ++ before) = some op := by
  have size := length_of_spellsTo spelled
  rw [(AssignOp.spelling_eq op assigns).2] at size
  rcases List.eq_nil_or_concat taken with rfl | ⟨earlier, last, rfl⟩
  · cases op <;> cases size
    cases before with
    | nil => rfl
    | cons previous earlier =>
        have other := beq_eq_false_iff_ne.mpr (apart previous rfl)
        simp [assignEnded?, other]
  · rw [List.concat_eq_append] at size spelled ⊢
    rw [List.length_append, List.length_singleton] at size
    rw [List.reverse_concat, List.cons_append, assignEnded?]
    -- behind a last token that is linked to `=`, what stands before it decides
    have linked : ∀ {c : Char}, last.isPunct c = true → last.touches token = true →
        (last.kind == .punct && last.touches token) = true ∧ last.text = [c] := fun found touches =>
      ⟨by rw [(isPunct_iff.mp found).1, touches]; rfl, (isPunct_iff.mp found).2⟩
    rcases AssignOp.cases_assignments assigns with rfl | ⟨c, compound⟩ | rfl | rfl | rfl
    · cases size
    · rw [(AssignOp.front_of_ofPunct? compound).2, ← List.nil_append [c],
        spellsTo_concat] at spelled
      obtain ⟨none, isPunct, touches⟩ := by simpa only [Bool.and_eq_true] using spelled
      rw [if_pos (linked isPunct touches).1, assignAfterPunct_of_ofPunct? _ compound isPunct]
    · obtain ⟨run, isPunct, touches⟩ := (spellsTo_front_iff apart '<' rfl size.symm).mp spelled
      obtain ⟨links, text⟩ := linked isPunct touches
      rw [← Nat.succ.inj size.symm] at run
      simp [links, assignAfterPunct, text, run]
    · obtain ⟨run, isPunct, touches⟩ := (spellsTo_front_iff apart '>' rfl size.symm).mp spelled
      obtain ⟨links, text⟩ := linked isPunct touches
      rw [← Nat.succ.inj size.symm] at run
      simp [links, assignAfterPunct, text, run]
    · obtain ⟨run, isPunct, touches⟩ := (spellsTo_front_iff apart '>' rfl size.symm).mp spelled
      obtain ⟨links, text⟩ := linked isPunct touches
      rw [← Nat.succ.inj size.symm] at run
      simp [links, assignAfterPunct, text, run]

/-- The operator that a token ends behind a name is the one that is spelled from there to it. -/
theorem assignOp?_eq_some_iff (apart : ∀ previous ∈ before.head?, previous.kind ≠ .punct)
    (taken : List Token) (token : Token) (after : List Token) (size : taken.length = op.lead) :
    assignOp? (taken.reverse ++ before) token after = some op ↔
      Begins op (taken ++ token :: after) := by
  rw [assignOp?_eq]
  constructor
  · intro found
    split at found
    · rename_i ends
      obtain ⟨assigns, spelled⟩ := assignEnded?_eq_some apart found size.symm
      exact (begins_append_iff taken token after assigns size).mpr ⟨spelled, ends⟩
    · cases found
  · intro begins
    obtain ⟨spelled, ends⟩ := (begins_append_iff taken token after begins.1 size).mp begins
    rw [if_pos ends]
    exact assignEnded?_of_spellsTo apart begins.1 spelled

theorem length_le_of_spells {word : Text} {tokens : List Token}
    (spelled : spells word tokens = true) :
    word.length ≤ tokens.length := by
  induction word generalizing tokens with
  | nil => exact Nat.zero_le _
  | cons c word ih =>
      cases tokens with
      | nil => cases spelled
      | cons token rest =>
          rw [spells, Bool.and_eq_true] at spelled
          exact Nat.succ_le_succ (ih spelled.2)

/-- The tokens of an operator up to its last one. -/
theorem Begins.split {tokens : List Token} (begins : Begins op tokens) :
    ∃ taken token after, tokens = taken ++ token :: after ∧ taken.length = op.lead := by
  obtain ⟨spelled, lead⟩ := AssignOp.spelling_eq op begins.1
  have long := length_le_of_spells begins.2.1
  rw [spelled, List.length_append, List.length_singleton, lead] at long
  refine ⟨tokens.take op.lead, tokens[op.lead], tokens.drop (op.lead + 1), ?_, ?_⟩
  · rw [← List.drop_eq_getElem_cons, List.take_append_drop]
  · exact List.length_take_of_le (Nat.le_of_succ_le long)

theorem not_equals_of_spellsTo {next : Token} {word : Text} {taken : List Token}
    (spelled : spellsTo next word taken = true) (other : '=' ∉ word) {token : Token}
    (listed : token ∈ taken) : token.isPunct '=' = false := by
  induction word generalizing taken with
  | nil =>
      rw [spellsTo, List.isEmpty_iff] at spelled
      rw [spelled] at listed
      cases listed
  | cons c word ih =>
      cases taken with
      | nil => cases listed
      | cons first rest =>
          simp only [spellsTo, Bool.and_eq_true] at spelled
          have differs : c ≠ '=' := fun same => other (same ▸ List.mem_cons_self)
          rcases List.mem_cons.mp listed with rfl | later
          · have text := (isPunct_iff.mp spelled.1.1).2
            simp [isPunct, text, differs]
          · exact ih spelled.2 (fun among => other (List.mem_cons_of_mem _ among)) later

end Token

theorem AssignOp.lead_le (op : AssignOp) : op.lead ≤ 3 := by
  cases op <;> decide

theorem AssignOp.not_equals : ∀ op ∈ assignments, '=' ∉ op.front := by
  decide

namespace Code

variable {before : List Token} {code : List CodeToken} {op : AssignOp}

/-- The search for an assignment finds the first of four tokens that ends one that starts where the
search does. -/
theorem leadingAssign?_eq_some : leadingAssign? code = some op ↔
    ∃ front token rest, code = front ++ token :: rest ∧ token.assign = some op ∧
      op.lead = front.length ∧
      ∀ other ∈ front.zipIdx, (other.1.assign.filter fun op => op.lead == other.2) = none := by
  rw [leadingAssign?, List.findSome?_eq_some_iff]
  constructor
  · rintro ⟨earlier, ⟨token, index⟩, later, split, found, none⟩
    obtain ⟨front, others, taken, rfl, rest⟩ := List.zipIdx_eq_append_iff.mp split
    obtain ⟨next, more, rfl, here, _⟩ := List.zipIdx_eq_cons_iff.mp rest.symm
    cases here
    obtain ⟨assign, lead⟩ := Option.filter_eq_some_iff.mp found
    refine ⟨front, token, more ++ code.drop 4, ?_, assign, ?_, none⟩
    · rw [← List.cons_append, ← List.append_assoc, ← taken, List.take_append_drop]
    · simpa using lead
  · rintro ⟨front, token, rest, rfl, assign, lead, none⟩
    have short := op.lead_le
    refine ⟨front.zipIdx, (token, front.length), (rest.take (3 - front.length)).zipIdx
      (front.length + 1), ?_, ?_, none⟩
    · have taken : (front ++ token :: rest).take 4 =
          front ++ token :: rest.take (3 - front.length) := by
        rw [List.take_append, List.take_of_length_le (by omega),
          show 4 - front.length = 3 - front.length + 1 by omega, List.take_succ_cons]
      rw [taken, List.zipIdx_append, List.zipIdx_cons, Nat.zero_add]
    · simp [assign, lead]

/-- The operator that is found behind a name is the one that is spelled there. -/
theorem leadingAssign?_eq_some_iff (marks : Marks before [] code)
    (apart : ∀ previous ∈ before.head?, previous.kind ≠ .punct) :
    leadingAssign? code = some op ↔ Token.Begins op (code.map CodeToken.token) := by
  have assigned : ∀ {front : List CodeToken} {token : CodeToken} {rest : List CodeToken},
      code = front ++ token :: rest → op.lead = front.length →
        (token.assign = some op ↔ Token.Begins op (code.map CodeToken.token)) := by
    rintro front token rest rfl lead
    have here := (marks_append.mp marks).2.1
    rw [List.append_nil] at here
    rw [here, List.map_append, List.map_cons]
    exact Token.assignOp?_eq_some_iff apart _ _ _ (by rw [List.length_map, lead])
  rw [leadingAssign?_eq_some]
  constructor
  · rintro ⟨front, token, rest, split, assign, lead, _⟩
    exact (assigned split lead).mp assign
  · intro begins
    obtain ⟨taken, last, after, split, size⟩ := begins.split
    obtain ⟨front, behind, rfl, isTaken, isBehind⟩ := List.map_eq_append_iff.mp split
    obtain ⟨token, rest, rfl, isLast, isAfter⟩ := List.map_eq_cons_iff.mp isBehind
    have lead : op.lead = front.length := by rw [← size, ← isTaken, List.length_map]
    refine ⟨front, token, rest, rfl, (assigned rfl lead).mpr begins, lead, ?_⟩
    -- a token in front of the last character of the operator is no `=`
    rw [split] at begins
    obtain ⟨spelled, _⟩ := (Token.begins_append_iff taken last after begins.1 size).mp begins
    rintro ⟨other, index⟩ listed
    have among : other ∈ front := List.fst_mem_of_mem_zipIdx listed
    have plain : other.isPunct '=' = false :=
      Token.not_equals_of_spellsTo spelled (AssignOp.not_equals op begins.1)
        (by rw [← isTaken]; exact List.mem_map_of_mem among)
    have marked := marks.marked other (by simp [among])
    have none : other.assign = none := by
      cases assign : other.assign with
      | none => rfl
      | some op =>
          have isEquals := marked (by rw [assign]; rfl)
          rw [plain] at isEquals
          cases isEquals
    rw [none]
    rfl

end Code

end JavaRecords
