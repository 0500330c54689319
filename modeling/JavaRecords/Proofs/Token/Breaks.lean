import JavaRecords.Proofs.Token.Chain

set_option autoImplicit false

namespace JavaRecords

namespace Text

/-- Whether a text ends with a carriage return; `before` says it of the text in front of it. -/
def returns (before : Bool) (text : Text) : Bool := (text.getLast?.map (· == '\r')).getD before

@[simp] theorem returns_nil (before : Bool) : returns before [] = before := rfl

theorem returns_append (before : Bool) (left right : Text) :
    returns before (left ++ right) = returns (returns before left) right := by
  unfold returns
  rw [List.getLast?_append]
  cases right.getLast? <;> simp

theorem returns_of_ne_nil {text : Text} (nonempty : text ≠ []) (before : Bool) :
    returns before text = returns false text := by
  unfold returns
  rw [List.getLast?_eq_some_getLast nonempty]
  rfl

theorem returns_mono {left : Text} {before : Bool} (returned : returns false left = true) :
    returns before left = true := by
  cases left with
  | nil => cases returned
  | cons c left => rw [returns_of_ne_nil (List.cons_ne_nil c left), returned]

/-- Each line feed of a text follows a carriage return, and each carriage return stands before a
line feed or ends one of the texts `exempt`. -/
structure CrLf (exempt : List Text) (before : Bool) (text : Text) : Prop where
  feeds : ∀ left right, text = left ++ '\n' :: right → returns before left = true
  stops : ∀ left right, text = left ++ '\r' :: right →
    right.head? = some '\n' ∨ ∃ line ∈ exempt, line <:+ left ++ ['\r']

variable {exempt : List Text} {before : Bool} {left right text : Text}

theorem CrLf.of_plain (plain : ∀ c ∈ text, c ≠ '\n' ∧ c ≠ '\r') : CrLf exempt before text where
  feeds left right split := absurd rfl (plain '\n' (by rw [split]; simp)).1
  stops left right split := absurd rfl (plain '\r' (by rw [split]; simp)).2

theorem CrLf.of_all (plain : (text.all fun c => c != '\n' && c != '\r') = true) :
    CrLf exempt before text :=
  .of_plain (by simpa using plain)

theorem CrLf.nil : CrLf exempt before [] := .of_plain fun _ listed => absurd listed List.not_mem_nil

theorem CrLf.newline : CrLf exempt before ['\r', '\n'] where
  feeds left right split := by
    rcases left with _ | ⟨c, _ | ⟨d, left⟩⟩
    · simp at split
    · cases split
      exact returns_of_ne_nil (List.cons_ne_nil _ _) before
    · simp at split
  stops left right split := by
    rcases left with _ | ⟨c, _ | ⟨d, left⟩⟩
    · cases split
      exact Or.inl rfl
    · simp at split
    · simp at split

/-- Where a character of two joined texts stands. -/
theorem split_append {c : Char} {front back : Text} (split : left ++ right = front ++ c :: back) :
    (∃ rest, left = front ++ c :: rest ∧ back = rest ++ right) ∨
      ∃ rest, front = left ++ rest ∧ right = rest ++ c :: back := by
  rcases List.append_eq_append_iff.mp split with ⟨rest, same, later⟩ | ⟨rest, same, later⟩
  · exact Or.inr ⟨rest, same, later⟩
  · cases rest with
    | nil => exact Or.inr ⟨[], by simpa using same.symm, by simpa using later.symm⟩
    | cons d rest =>
        obtain ⟨rfl, joined⟩ := List.cons.inj later
        exact Or.inl ⟨rest, same, joined⟩

theorem CrLf.append (first : CrLf exempt before left)
    (second : CrLf exempt (returns before left) right) : CrLf exempt before (left ++ right) where
  feeds front back split := by
    rcases split_append split with ⟨rest, same, _⟩ | ⟨rest, rfl, later⟩
    · exact first.feeds front rest same
    · rw [returns_append]
      exact second.feeds rest back later
  stops front back split := by
    rcases split_append split with ⟨rest, same, rfl⟩ | ⟨rest, rfl, later⟩
    · rcases first.stops front rest same with next | ended
      · left
        rw [List.head?_append, next]
        rfl
      · exact Or.inr ended
    · rcases second.stops rest back later with next | ⟨line, listed, ended⟩
      · exact Or.inl next
      · right
        refine ⟨line, listed, ?_⟩
        rw [List.append_assoc]
        exact ended.trans (List.suffix_append _ _)

theorem CrLf.mono (breaks : CrLf exempt false text) : CrLf exempt before text where
  feeds left right split := returns_mono (breaks.feeds left right split)
  stops := breaks.stops

/-- Texts that do not depend on what stands before them can be joined. -/
theorem CrLf.concat (first : CrLf exempt before left) (second : CrLf exempt false right) :
    CrLf exempt before (left ++ right) :=
  first.append second.mono

theorem CrLf.flatMap {α : Type} {items : List α} {write : α → Text}
    (each : ∀ item ∈ items, CrLf exempt false (write item)) :
    CrLf exempt false (items.flatMap write) := by
  induction items with
  | nil => exact .nil
  | cons item items ih =>
      rw [List.flatMap_cons]
      exact (each item List.mem_cons_self).concat
        (ih fun other listed => each other (List.mem_cons_of_mem _ listed))

theorem CrLf.separated {separator : Text} {texts : List Text}
    (between : CrLf exempt false separator) (each : ∀ text ∈ texts, CrLf exempt false text) :
    CrLf exempt false (join separator texts) := by
  fun_induction join separator texts with
  | case1 => exact .nil
  | case2 text => exact each text List.mem_cons_self
  | case3 text texts _ ih =>
      exact ((each text List.mem_cons_self).concat between).concat
        (ih fun other listed => each other (List.mem_cons_of_mem _ listed))

theorem CrLf.alone (breaks : CrLf exempt before text) (start : text.head? ≠ some '\n') :
    CrLf exempt false text where
  feeds front back split := by
    cases front with
    | nil =>
        rw [split] at start
        exact absurd rfl start
    | cons c front =>
        rw [← returns_of_ne_nil (List.cons_ne_nil c front) before]
        exact breaks.feeds _ back split
  stops := breaks.stops

/-- The start of a text with one kind of line break. If it ends inside a line break, then with an
exempt text. -/
theorem CrLf.front (breaks : CrLf [] before (left ++ right))
    (ended : left.getLast? = some '\r' → right.head? = some '\n' → ∃ line ∈ exempt, line <:+ left) :
    CrLf exempt before left where
  feeds front back split := breaks.feeds front (back ++ right) (by rw [split]; simp)
  stops front back split := by
    have next := breaks.stops front (back ++ right) (by rw [split]; simp)
    simp only [List.not_mem_nil, false_and, exists_false, or_false] at next
    cases back with
    | nil =>
        obtain ⟨line, listed, ending⟩ := ended (by rw [split]; simp) next
        exact Or.inr ⟨line, listed, split ▸ ending⟩
    | cons c back => exact Or.inl next

/-- The end of a text with one kind of line break. -/
theorem CrLf.back (breaks : CrLf [] before (left ++ right)) :
    CrLf [] (returns before left) right where
  feeds front back split := by
    rw [← returns_append]
    exact breaks.feeds (left ++ front) back (by rw [split, List.append_assoc])
  stops front back split := by
    have next := breaks.stops (left ++ front) back (by rw [split, List.append_assoc])
    simp only [List.not_mem_nil, false_and, exists_false, or_false] at next
    exact Or.inl next

theorem CrLf.weaken (breaks : CrLf [] before text) : CrLf exempt before text where
  feeds := breaks.feeds
  stops left right split := by
    rcases breaks.stops left right split with next | ⟨_, listed, _⟩
    · exact Or.inl next
    · cases listed

/-- Whether a text has one kind of line break. -/
def hasCrLf (before : Bool) : Text → Bool
  | [] => true
  | c :: rest => (c != '\n' || before) && (c != '\r' || rest.head? == some '\n') &&
      hasCrLf (c == '\r') rest

theorem crLf_cons {c : Char} {rest : Text} : CrLf [] before (c :: rest) ↔
    (c = '\n' → before = true) ∧ (c = '\r' → rest.head? = some '\n') ∧
      CrLf [] (c == '\r') rest := by
  constructor
  · intro breaks
    have whole : CrLf [] before ([c] ++ rest) := breaks
    refine ⟨?_, ?_, whole.back⟩
    · rintro rfl
      exact breaks.feeds [] rest rfl
    · rintro rfl
      simpa using breaks.stops [] rest rfl
  · rintro ⟨feed, stop, others⟩
    constructor
    · intro left right split
      cases left with
      | nil => exact feed (List.cons.inj split).1
      | cons d left =>
          obtain ⟨rfl, joined⟩ := List.cons.inj split
          exact (returns_append before [c] left).trans (others.feeds left right joined)
    · intro left right split
      cases left with
      | nil =>
          obtain ⟨rfl, rfl⟩ := List.cons.inj split
          exact Or.inl (stop rfl)
      | cons d left => simpa using others.stops left right (List.cons.inj split).2

theorem hasCrLf_iff {text : Text} : hasCrLf before text = true ↔ CrLf [] before text := by
  induction text generalizing before with
  | nil => exact ⟨fun _ => .nil, fun _ => rfl⟩
  | cons c rest ih =>
      rw [hasCrLf, crLf_cons, Bool.and_eq_true, Bool.and_eq_true, ih, and_assoc]
      simp [imp_iff_not_or]

instance (before : Bool) (text : Text) : Decidable (CrLf [] before text) :=
  decidable_of_iff _ hasCrLf_iff

end Text

namespace Token

theorem getLast?_closeComment {text body rest : Text}
    (closed : closeComment text = some (body, rest)) : body.getLast? = some '/' := by
  fun_induction closeComment text generalizing body rest with
  | case1 => cases closed; rfl
  | case2 c tail _ ih =>
      obtain ⟨cut, found, pair⟩ := Option.map_eq_some_iff.mp closed
      cases pair
      rw [List.getLast?_cons, ih found]
      rfl
  | case3 => cases closed

theorem getLast?_closeQuote {quote : Char} {text body rest : Text}
    (closed : closeQuote quote text = some (body, rest)) : body.getLast? = some quote := by
  fun_induction closeQuote quote text generalizing body rest with
  | case1 => cases closed
  | case2 => cases closed; rfl
  | case3 => cases closed
  | case4 d tail _ ih =>
      obtain ⟨cut, found, pair⟩ := Option.map_eq_some_iff.mp closed
      cases pair
      rw [List.getLast?_cons_cons, List.getLast?_cons, ih found]
      rfl
  | case5 => cases closed
  | case6 c tail _ _ _ ih =>
      obtain ⟨cut, found, pair⟩ := Option.map_eq_some_iff.mp closed
      cases pair
      rw [List.getLast?_cons, ih found]
      rfl

theorem getLast?_closeTextBlock {text body rest : Text}
    (closed : closeTextBlock text = some (body, rest)) : body.getLast? = some '"' := by
  fun_induction closeTextBlock text generalizing body rest with
  | case1 => cases closed; rfl
  | case2 c tail ih =>
      obtain ⟨cut, found, pair⟩ := Option.map_eq_some_iff.mp closed
      cases pair
      rw [List.getLast?_cons_cons, List.getLast?_cons, ih found]
      rfl
  | case3 c tail _ _ ih =>
      obtain ⟨cut, found, pair⟩ := Option.map_eq_some_iff.mp closed
      cases pair
      rw [List.getLast?_cons, ih found]
      rfl
  | case4 => cases closed

/-- The last character that a reader takes while a test holds is the first one or passes it. -/
theorem getLast?_run {kind found : TokenKind} {part : Char → Bool} {c d : Char}
    {rest text left : Text}
    (read : run kind part c rest = .ok (found, text, left)) (last : text.getLast? = some d) :
    kind = found ∧ (d = c ∨ part d = true) := by
  cases read
  refine ⟨rfl, ?_⟩
  rcases List.mem_cons.mp (List.mem_of_getLast? last) with rfl | inside
  · exact Or.inl rfl
  · exact Or.inr (List.mem_takeWhile_imp inside)

/-- Only a line comment ends with the carriage return of a line break. -/
theorem ReadsAs.kind_of_return {kind : TokenKind} {text rest : Text}
    (reads : ReadsAs kind text rest) (last : text.getLast? = some '\r') : kind = .lineComment := by
  obtain ⟨c, word, rfl, visible, read⟩ := reads
  have other : '\r' ≠ c := by
    rintro rfl
    rw [Text.isSpace_return] at visible
    cases visible
  have closes : ∀ {form : Unterminated} {own : TokenKind} {opener : Text}
      {closing : Option (Text × Text)} {mark : Char}, mark ≠ '\r' →
      (∀ body rest, closing = some (body, rest) → body.getLast? = some mark) →
      enclosed form own opener closing ≠ .ok (kind, c :: word, rest) := by
    intro form own opener closing mark different ends read
    obtain ⟨_, body, closed, spelled⟩ := enclosed_eq_ok read
    have final := ends body rest closed
    rw [spelled, List.getLast?_append, final] at last
    exact different (Option.some.inj last)
  rw [readToken_eq] at read
  split at read
  · exact (getLast?_run read last).1.symm
  · split at read
    · exact absurd read (closes (by decide) fun body rest => getLast?_closeComment)
    · split at read
      · split at read
        · exact absurd read (closes (by decide) fun body rest => getLast?_closeTextBlock)
        · exact absurd read (closes (by decide) fun body rest => getLast?_closeQuote)
      · split at read
        · exact absurd read (closes (by decide) fun body rest => getLast?_closeQuote)
        · split at read
          · rcases (getLast?_run read last).2 with same | part
            · exact absurd same other
            · exact absurd part (by decide)
          · split at read
            · rcases (getLast?_run read last).2 with same | part
              · exact absurd same other
              · exact absurd part (by decide)
            · cases read
              exact absurd (Option.some.inj last).symm other

theorem ReadsAs.head?_ne {kind : TokenKind} {text rest : Text} (reads : ReadsAs kind text rest) :
    text.head? ≠ some '\n' := by
  obtain ⟨c, word, rfl, visible, _⟩ := reads
  rintro ⟨⟩
  rw [Text.isSpace_newline] at visible
  cases visible

/-- Tokens with one kind of line break in and between them. A carriage return may end a token if the
token is exempt; the next one is then found in a line break. -/
def Broken (exempt : List Text) : Bool → List Token → Prop
  | _, [] => True
  | before, token :: rest =>
      token.space.CrLf exempt before ∧ token.text.CrLf exempt false ∧ token.text ≠ [] ∧
        Broken exempt (Text.returns false token.text) rest

variable {exempt : List Text} {before : Bool} {left right tokens : List Token}

theorem Broken.spell (broken : Broken exempt before tokens) :
    (Token.spell tokens).CrLf exempt before := by
  induction tokens generalizing before with
  | nil => exact .nil
  | cons token rest ih =>
      obtain ⟨space, text, nonempty, others⟩ := broken
      rw [spell_cons]
      refine (space.concat text).append ?_
      rw [Text.returns_append, Text.returns_of_ne_nil nonempty]
      exact ih others

theorem broken_append : Broken exempt before (left ++ right) ↔
    Broken exempt before left ∧ Broken exempt (Text.returns before (Token.spell left)) right := by
  induction left generalizing before with
  | nil => simp [Broken]
  | cons token rest ih =>
      rw [List.cons_append, Broken, Broken, spell_cons, Text.returns_append, Text.returns_append]
      constructor
      · rintro ⟨space, text, nonempty, others⟩
        obtain ⟨first, second⟩ := ih.mp others
        rw [Text.returns_of_ne_nil nonempty (Text.returns before token.space)]
        exact ⟨⟨space, text, nonempty, first⟩, second⟩
      · rintro ⟨⟨space, text, nonempty, first⟩, second⟩
        rw [Text.returns_of_ne_nil nonempty (Text.returns before token.space)] at second
        exact ⟨space, text, nonempty, ih.mpr ⟨first, second⟩⟩

theorem Broken.text_of_mem (broken : Broken exempt before tokens) {token : Token}
    (listed : token ∈ tokens) : token.text.CrLf exempt false := by
  obtain ⟨front, back, rfl⟩ := List.append_of_mem listed
  exact (broken_append.mp broken).2.2.1

theorem Broken.visible (broken : Broken exempt before tokens) {token : Token}
    (listed : token ∈ tokens) : token.text ≠ [] := by
  obtain ⟨front, back, rfl⟩ := List.append_of_mem listed
  exact (broken_append.mp broken).2.2.2.1

theorem broken_of_crLf {tail : Text} (breaks : (Token.spell tokens ++ tail).CrLf [] before)
    (chain : Chain tokens tail)
    (lines : ∀ token ∈ tokens, token.kind = .lineComment → token.text ∈ exempt) :
    Broken exempt before tokens := by
  induction tokens generalizing before with
  | nil => trivial
  | cons token rest ih =>
      obtain ⟨_, reads, others⟩ := chain
      rw [spell_cons, List.append_assoc, List.append_assoc] at breaks
      refine ⟨breaks.front fun _ next => ?_, ?_, reads.ne_nil, ?_⟩
      · obtain ⟨c, word, same⟩ := List.exists_cons_of_ne_nil reads.ne_nil
        have start := reads.head?_ne
        rw [same] at next start
        exact absurd next start
      · refine (breaks.back.front fun last _ => ?_).alone reads.head?_ne
        exact ⟨token.text, lines token List.mem_cons_self (reads.kind_of_return last),
          List.suffix_rfl⟩
      · have after := breaks.back.back
        rw [Text.returns_of_ne_nil reads.ne_nil] at after
        exact ih after others fun other listed => lines other (List.mem_cons_of_mem _ listed)

end Token

end JavaRecords
