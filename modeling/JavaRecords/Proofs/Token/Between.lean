import JavaRecords.Proofs.Parse.Tiling

set_option autoImplicit false

namespace JavaRecords

namespace Token

def code (tokens : List Token) : List Text :=
  (tokens.filter fun token => !token.isComment).map Token.text

@[simp] theorem code_append (left right : List Token) :
    code (left ++ right) = code left ++ code right := by
  simp [code]

theorem code_of_comments {comments : List Token}
    (all : ∀ comment ∈ comments, comment.isComment = true) : code comments = [] := by
  unfold code
  rw [List.filter_eq_nil_iff.mpr, List.map_nil]
  intro comment listed
  simp [all comment listed]

theorem map_text_found (before : Text) (tokens : List Token) :
    (Word.found before tokens).map Word.text = code tokens := by
  induction tokens generalizing before with
  | nil => rfl
  | cons token rest ih =>
      unfold Word.found
      split
      · rename_i comment
        rw [ih]
        simp [code, comment]
      · rename_i word
        rw [List.map_cons, ih]
        simp [code, word]

def between (tokens : List Token) (start stop : Nat) : List Token :=
  tokens.filter fun token => start ≤ token.start && token.start < stop

/-- The code between two byte offsets, with other code in the place of some spans. -/
def codeWith (tokens : List Token) (start stop : Nat) : List (Span × List Text) → List Text
  | [] => code (between tokens start stop)
  | (span, texts) :: rest =>
      code (between tokens start span.start) ++ texts ++ codeWith tokens span.stop stop rest

theorem between_between (tokens : List Token) {start low high stop : Nat} (first : start ≤ low)
    (last : high ≤ stop) : between (between tokens start stop) low high =
      between tokens low high := by
  unfold between
  rw [List.filter_filter]
  apply List.filter_congr
  intro token _
  rw [Bool.eq_iff_iff]
  simp only [Bool.and_eq_true, decide_eq_true_eq]
  omega

theorem between_split {tokens before after : List Token} {start stop : Nat} (cut : Nat)
    (whole : between tokens start stop = before ++ after)
    (first : ∀ token ∈ before, token.start < cut) (last : ∀ token ∈ after, cut ≤ token.start)
    (low : start ≤ cut) (high : cut ≤ stop) :
    between tokens start cut = before ∧ between tokens cut stop = after := by
  have bounds : ∀ token ∈ before ++ after, start ≤ token.start ∧ token.start < stop := by
    intro token listed
    rw [← whole] at listed
    simpa using (List.mem_filter.mp listed).2
  rw [← between_between tokens (Nat.le_refl start) high,
    ← between_between tokens low (Nat.le_refl stop), whole]
  unfold between
  rw [List.filter_append, List.filter_append]
  simp only [List.mem_append] at bounds
  constructor
  · rw [List.filter_eq_self.mpr, List.filter_eq_nil_iff.mpr, List.append_nil]
    · intro token listed
      have := last token listed
      simp only [Bool.and_eq_true, decide_eq_true_eq]
      omega
    · intro token listed
      simpa using ⟨(bounds token (.inl listed)).1, first token listed⟩
  · rw [List.filter_eq_nil_iff.mpr, List.filter_eq_self.mpr, List.nil_append]
    · intro token listed
      simpa using ⟨last token listed, (bounds token (.inr listed)).2⟩
    · intro token listed
      have := first token listed
      simp only [Bool.and_eq_true, decide_eq_true_eq]
      omega

theorem Placed.bounds {offset : Nat} {tokens : List Token} (placed : Placed offset tokens)
    (visible : Visible tokens) {token : Token} (listed : token ∈ tokens) :
    offset ≤ token.start ∧ token.start < offset + Text.byteSize (spell tokens) := by
  obtain ⟨before, after, rfl⟩ := List.append_of_mem listed
  obtain ⟨_, later⟩ := placed_append.mp placed
  obtain ⟨start, _⟩ := placed_cons.mp later
  have positive := Text.byteSize_pos_of_ne_nil _ (visible token (by simp))
  simp only [spell_append, spell_cons, Text.byteSize_append]
  omega

theorem Placed.within {offset : Nat} {tokens : List Token} (placed : Placed offset tokens)
    {token : Token} (listed : token ∈ tokens) :
    offset ≤ token.start ∧ token.stop ≤ offset + Text.byteSize (spell tokens) := by
  obtain ⟨before, after, rfl⟩ := List.append_of_mem listed
  obtain ⟨_, later⟩ := placed_append.mp placed
  obtain ⟨start, _⟩ := placed_cons.mp later
  simp only [Token.stop, spell_append, spell_cons, Text.byteSize_append]
  omega

structure Located (tokens : List Token) (offset start stop : Nat) (part : List Token) : Prop where
  tokens : between tokens start stop = part
  placed : Placed offset part
  visible : Visible part
  ends : offset + Text.byteSize (spell part) ≤ stop

theorem Located.cut {tokens before rest after : List Token} {first : Token}
    {offset start stop : Nat}
    (located : Located tokens offset start stop (before ++ (first :: rest ++ after))) :
    let run := offset + Text.byteSize (spell before)
    let next := run + Text.byteSize (spell (first :: rest))
    Token.between tokens start first.start = before ∧
      Located tokens run first.start next (first :: rest) ∧
      Located tokens next next stop after := by
  obtain ⟨whole, placed, visible, ends⟩ := located
  obtain ⟨placedBefore, placedRest⟩ := placed_append.mp placed
  obtain ⟨placedRun, placedAfter⟩ := placed_append.mp placedRest
  obtain ⟨visibleBefore, visibleRest⟩ := Visible.append.mp visible
  obtain ⟨visibleRun, visibleAfter⟩ := Visible.append.mp visibleRest
  obtain ⟨begins, placedOthers⟩ := placed_cons.mp placedRun
  have inside : first ∈ between tokens start stop := by
    rw [whole]
    simp
  have bounds := (List.mem_filter.mp inside).2
  intro run next
  simp only [Bool.and_eq_true, decide_eq_true_eq] at bounds
  have own := placedRun.bounds visibleRun List.mem_cons_self
  simp only [spell_append, Text.byteSize_append] at ends
  have beforeFirst : ∀ token ∈ before, token.start < first.start := by
    intro token listed
    have := (placedBefore.bounds visibleBefore listed).2
    omega
  have beforeEnd : ∀ token ∈ first :: rest, token.start < next := by
    intro token listed
    exact (placedRun.bounds visibleRun listed).2
  have afterEnd : ∀ token ∈ after, next ≤ token.start := by
    intro token listed
    exact (placedAfter.bounds visibleAfter listed).1
  have afterFirst : ∀ token ∈ first :: rest ++ after, first.start ≤ token.start := by
    intro token listed
    rcases List.mem_append.mp listed with among | among
    · rcases List.mem_cons.mp among with rfl | among
      · exact Nat.le_refl _
      · have visibleOthers : Visible rest := fun other listed =>
          visibleRun other (List.mem_cons_of_mem _ listed)
        have := (placedOthers.bounds visibleOthers among).1
        have := first.start_le_stop
        omega
    · exact Nat.le_trans (Nat.le_of_lt own.2) (afterEnd token among)
  obtain ⟨early, late⟩ := between_split first.start whole beforeFirst afterFirst bounds.1
    (Nat.le_of_lt bounds.2)
  obtain ⟨middle, tail⟩ := between_split next late beforeEnd afterEnd (Nat.le_of_lt own.2)
    (by omega)
  exact ⟨early, ⟨middle, placedRun, visibleRun, Nat.le_refl _⟩, tail, placedAfter, visibleAfter,
    by omega⟩

end Token

end JavaRecords
