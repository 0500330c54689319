import JavaRecords.Tree.Trivia

set_option autoImplicit false

namespace JavaRecords.TriviaTable

theorem lookup_put_self (id : NodeId) (trivia : Trivia) (entries : List (NodeId × Trivia)) :
    (put id trivia entries).lookup id = some trivia := by
  induction entries with
  | nil => simp [put]
  | cons entry rest ih =>
      rw [put]
      split
      · rename_i before
        have different : id ≠ entry.1 := by
          intro same
          rw [same] at before
          exact absurd before (Nat.lt_irrefl _)
        rw [List.lookup_cons, beq_eq_false_iff_ne.mpr different]
        exact ih
      · split <;> rw [List.lookup_cons_self]

theorem lookup_put_of_ne {id other : NodeId} (different : other ≠ id) (trivia : Trivia)
    (entries : List (NodeId × Trivia)) :
    (put id trivia entries).lookup other = entries.lookup other := by
  induction entries with
  | nil => simp [put, List.lookup_cons, beq_eq_false_iff_ne.mpr different]
  | cons entry rest ih =>
      rw [put]
      split
      · rw [List.lookup_cons, List.lookup_cons, ih]
      · split
        · rename_i same
          rw [List.lookup_cons, List.lookup_cons, same, beq_eq_false_iff_ne.mpr different]
        · rw [List.lookup_cons, beq_eq_false_iff_ne.mpr different]

theorem lookup_filter_self (id : NodeId) (entries : List (NodeId × Trivia)) :
    (entries.filter fun entry => entry.1 != id).lookup id = none := by
  induction entries with
  | nil => rfl
  | cons entry rest ih =>
      rw [List.filter_cons]
      split
      · rename_i kept
        have different : id ≠ entry.1 := fun same => by simp [same] at kept
        rw [List.lookup_cons, beq_eq_false_iff_ne.mpr different]
        exact ih
      · exact ih

theorem lookup_filter_of_ne {id other : NodeId} (different : other ≠ id)
    (entries : List (NodeId × Trivia)) :
    (entries.filter fun entry => entry.1 != id).lookup other = entries.lookup other := by
  induction entries with
  | nil => rfl
  | cons entry rest ih =>
      rw [List.filter_cons]
      split
      · rw [List.lookup_cons, List.lookup_cons, ih]
      · rename_i dropped
        have same : entry.1 = id := by simpa using dropped
        rw [List.lookup_cons, same, beq_eq_false_iff_ne.mpr different]
        exact ih

theorem get?_erase_self (table : TriviaTable) (id : NodeId) : (table.erase id).get? id = none :=
  lookup_filter_self id table.entries

theorem get?_erase_of_ne (table : TriviaTable) {id other : NodeId} (different : other ≠ id) :
    (table.erase id).get? other = table.get? other :=
  lookup_filter_of_ne different table.entries

theorem get?_insert_self (table : TriviaTable) (id : NodeId) (trivia : Trivia) :
    (table.insert id trivia).get? id = if trivia.isEmpty then none else some trivia := by
  unfold insert
  split
  · exact get?_erase_self table id
  · exact lookup_put_self id trivia table.entries

theorem get?_insert_of_ne (table : TriviaTable) {id other : NodeId} (different : other ≠ id)
    (trivia : Trivia) : (table.insert id trivia).get? other = table.get? other := by
  unfold insert
  split
  · exact get?_erase_of_ne table different
  · exact lookup_put_of_ne different trivia table.entries

/-- Comments found after an insertion are those inserted, or were there before. -/
theorem get?_insert_eq_some {table : TriviaTable} {id other : NodeId} {trivia found : Trivia}
    (present : (table.insert id trivia).get? other = some found) :
    (other = id ∧ found = trivia) ∨ (other ≠ id ∧ table.get? other = some found) := by
  by_cases same : other = id
  · subst same
    rw [get?_insert_self] at present
    split at present
    · cases present
    · cases present
      exact Or.inl ⟨rfl, rfl⟩
  · rw [get?_insert_of_ne table same] at present
    exact Or.inr ⟨same, present⟩

/-- Comments found after a removal were there before. -/
theorem get?_erase_eq_some {table : TriviaTable} {id other : NodeId} {found : Trivia}
    (present : (table.erase id).get? other = some found) :
    other ≠ id ∧ table.get? other = some found := by
  by_cases same : other = id
  · subst same
    rw [get?_erase_self] at present
    cases present
  · rw [get?_erase_of_ne table same] at present
    exact ⟨same, present⟩

/-- No entry is without comments. -/
def Filled (table : TriviaTable) : Prop :=
  ∀ id trivia, table.get? id = some trivia → trivia.isEmpty = false

theorem Filled.insert {table : TriviaTable} (filled : table.Filled) (id : NodeId)
    (trivia : Trivia) : (table.insert id trivia).Filled := by
  intro other found present
  by_cases same : other = id
  · subst same
    rw [get?_insert_self] at present
    split at present
    · cases present
    · rename_i nonempty
      cases present
      simpa using nonempty
  · rw [get?_insert_of_ne table same] at present
    exact filled other found present

end JavaRecords.TriviaTable
