import JavaRecords.Proofs.Print.Printed

set_option autoImplicit false

namespace JavaRecords

/-- A record to be written over the source of a class. -/
structure Patch where
  /-- The class. -/
  id : NodeId
  /-- The record in its place. -/
  record : NodeId
  span : Span
  text : Text

/-- The source from a byte offset on, with parts of it written over. There is none unless the parts
are in order and start and stop between characters. -/
def Text.overwrite? (source : Text) (cursor : Nat) : List Patch → Option Text
  | [] => Text.slice? source cursor (Text.byteSize source)
  | patch :: rest => do
      let gap ← Text.slice? source cursor patch.span.start
      let others ← Text.overwrite? source patch.span.stop rest
      some (gap ++ patch.text ++ others)

theorem Text.le_of_slice? {source text : Text} {start stop : Nat}
    (sliced : Text.slice? source start stop = some text) : start ≤ stop := by
  unfold Text.slice? at sliced
  split at sliced
  · assumption
  · cases sliced

/-- Parts of a source that can be written over in order do not overlap. -/
theorem Text.pairwise_of_overwrite? {source text : Text} {patches : List Patch} {cursor : Nat}
    (filled : ∀ patch ∈ patches, patch.span.start < patch.span.stop)
    (written : Text.overwrite? source cursor patches = some text) :
    (∀ patch ∈ patches, cursor ≤ patch.span.start) ∧
      patches.Pairwise fun patch other => patch.span.stop ≤ other.span.start := by
  induction patches generalizing cursor text with
  | nil => exact ⟨fun _ listed => absurd listed List.not_mem_nil, .nil⟩
  | cons patch rest ih =>
      obtain ⟨gap, sliced, written⟩ := Option.bind_eq_some_iff.mp written
      obtain ⟨others, later, _⟩ := Option.bind_eq_some_iff.mp written
      obtain ⟨after, ordered⟩ :=
        ih (fun other listed => filled other (List.mem_cons_of_mem _ listed)) later
      have first := Text.le_of_slice? sliced
      have own := filled patch List.mem_cons_self
      refine ⟨?_, List.pairwise_cons.mpr ⟨after, ordered⟩⟩
      intro other listed
      rcases List.mem_cons.mp listed with rfl | behind
      · exact first
      · have := after other behind
        omega

/-- Writing `patches` over the source `body`, from `before` on, gives `printed`, up to a part of the
source that stays. -/
def Text.Rewrites (source : Text) (patches : List Patch) (before gap body printed : Text) : Prop :=
  ∃ after left text, after ++ left = before ++ gap ++ body ∧ text ++ left = gap ++ printed ∧
    ∀ more, Text.overwrite? source (Text.byteSize before) (patches ++ more) =
      (Text.overwrite? source (Text.byteSize after) more).map (text ++ ·)

namespace Text.Rewrites

variable {source before gap body printed more : Text} {patches others : List Patch}

theorem nil (source before gap body : Text) : Rewrites source [] before gap body body :=
  ⟨before, gap ++ body, [], by simp, rfl, by simp⟩

theorem append {bodies printeds : Text} (first : Rewrites source patches before gap body printed)
    (second : ∀ after left, after ++ left = before ++ gap ++ body →
      Rewrites source others after left bodies printeds) :
    Rewrites source (patches ++ others) before gap (body ++ bodies) (printed ++ printeds) := by
  obtain ⟨after, left, text, joined, texts, written⟩ := first
  obtain ⟨last, rest, tail, joinedRest, textsRest, writtenRest⟩ := second after left joined
  refine ⟨last, rest, text ++ tail, ?_, ?_, ?_⟩
  · rw [joinedRest, joined]
    simp only [List.append_assoc]
  · rw [List.append_assoc, textsRest, ← List.append_assoc, texts, List.append_assoc]
  · intro more
    rw [List.append_assoc, written, writtenRest, Option.map_map]
    simp only [Function.comp_def, List.append_assoc]

theorem extend (written : Rewrites source patches before gap body printed) (more : Text) :
    Rewrites source patches before gap (body ++ more) (printed ++ more) := by
  have both := written.append fun after left _ => nil source after left more
  simpa using both

theorem advance (written : Rewrites source patches before (gap ++ more) body printed) :
    Rewrites source patches before gap (more ++ body) (more ++ printed) := by
  obtain ⟨after, left, text, joined, texts, written⟩ := written
  exact ⟨after, left, text, by simpa using joined, by simpa using texts, written⟩

theorem patch {id record : NodeId} {text after : Text}
    (whole : source = before ++ gap ++ body ++ after) :
    Rewrites source [⟨id, record, ⟨Text.byteSize (before ++ gap),
      Text.byteSize (before ++ gap) + Text.byteSize body⟩, text⟩] before gap body text := by
  refine ⟨before ++ gap ++ body, [], gap ++ text, by simp, by simp, ?_⟩
  intro more
  have sliced : Text.slice? source (Text.byteSize before) (Text.byteSize (before ++ gap)) =
      some gap := by
    have cut := Text.slice?_append before gap (body ++ after)
    rw [← List.append_assoc, ← whole] at cut
    rw [Text.byteSize_append]
    exact cut
  have stop : Text.byteSize (before ++ gap) + Text.byteSize body =
      Text.byteSize (before ++ gap ++ body) := by
    simp only [Text.byteSize_append]
  rw [List.singleton_append, overwrite?, sliced, stop]
  cases Text.overwrite? source (Text.byteSize (before ++ gap ++ body)) more <;> simp

end Text.Rewrites

/-- A patch holds the text of its record, after a line break if it does not start the source. -/
structure Patch.Renders (job : Printing) (patch : Patch) : Prop where
  record : patch.record = job.image patch.id
  filled : patch.span.start < patch.span.stop
  renders : ∃ record text, job.record? patch.id = some record ∧ patch.span = record.extent ∧
    job.tree.node? patch.record =
      some (.record { record with members := record.members.map job.image }) ∧
    job.tree.renderRecord? patch.record
      { record with members := record.members.map job.image } = some text ∧
    patch.text = job.separator record ++ text

namespace Outline

/-- The patches for the outermost classes that are converted. -/
def patches (job : Printing) : Outline → List Patch
  | nil => []
  | leaf _ _ rest => rest.patches job
  | type site _ members rest =>
      (match job.record? site.id with
        | some record => [⟨site.id, job.image site.id, ⟨site.cursor, site.stop⟩,
            job.separator record ++ members.recordText job site.id record⟩]
        | none => members.patches job)
        ++ rest.patches job

variable {job : Printing}

theorem renders_of_record {site : Site} {members : Outline} {record : RecordDecl} {fuel : Nat}
    (converted : job.record? site.id = some record)
    (found : job.tree.node? (job.image site.id) =
      some (.record { record with members := record.members.map job.image }))
    (extent : record.extent = ⟨site.cursor, site.stop⟩)
    (kept : ∀ member ∈ record.members, member ∈ members.ids) (filled : site.cursor < site.stop)
    (enough : job.tree.printFuel = fuel + 1)
    (printed : members.MembersPrinted job fuel (record.indent ++ SyntaxTree.memberIndent)) :
    Patch.Renders job ⟨site.id, job.image site.id, ⟨site.cursor, site.stop⟩,
      job.separator record ++ members.recordText job site.id record⟩ := by
  refine ⟨rfl, filled, record, _, converted, extent.symm, found, ?_, rfl⟩
  rw [SyntaxTree.renderRecord?, enough]
  exact (SyntaxTree.logged_agrees job.tree _ (fuel + 1)).record _ _ _ _ (printed.record kept)

/-- Writing the patches over the source of the declarations gives what they are printed as, and each
patch holds its record. -/
structure Patched (job : Printing) (before gap : Text) (outline : Outline) : Prop where
  rewrites : Text.Rewrites job.tree.source (outline.patches job) before gap
    (Token.spell outline.tokens) (outline.printed job)
  renders : ∀ patch ∈ outline.patches job, patch.Renders job

theorem byteSize_spell_pos {site : Site} (visible : Token.Visible site.tokens) :
    0 < Text.byteSize (Token.spell site.tokens) := by
  have bare : Code.bare site.piece.tokens =
      site.piece.first.token :: Code.flat site.piece.rest := rfl
  have nonempty : site.piece.first.token.text ≠ [] := by
    apply visible
    simp [Site.tokens, bare]
  have positive := Text.byteSize_pos_of_ne_nil _ nonempty
  rw [Site.tokens, bare]
  simp only [Token.spell_append, Token.spell_cons, Text.byteSize_append]
  omega

/-- The patches in the place of a declaration, with those of the declarations after it. -/
theorem Patched.cons {outline rest : Outline} {before gap text : Text} {own : List Patch}
    {here : List Token} (whole : outline.tokens = here ++ rest.tokens)
    (patches : outline.patches job = own ++ rest.patches job)
    (printed : outline.printed job = text ++ rest.printed job)
    (rewrites : Text.Rewrites job.tree.source own before gap (Token.spell here) text)
    (renders : ∀ patch ∈ own, patch.Renders job)
    (others : ∀ next left, next ++ left = before ++ gap ++ Token.spell here →
      Patched job next left rest) : Patched job before gap outline := by
  refine ⟨?_, fun patch listed => ?_⟩
  · rw [whole, patches, printed, Token.spell_append]
    exact rewrites.append fun next left joined => (others next left joined).rewrites
  · rw [patches] at listed
    rcases List.mem_append.mp listed with early | later
    · exact renders patch early
    · exact (others _ [] (List.append_nil _)).renders patch later

section

variable {site : Site} {shape : ClassShape} {members rest : Outline} {before gap : Text}

theorem Patched.converted {record : RecordDecl} (tiles : site.Tiles (Text.byteSize (before ++ gap)))
    (body : BodyTiles (Text.byteSize (before ++ gap)) site shape members)
    (memberTiles : members.Tiles (Code.bodyStart shape))
    (rebuilt : (type site shape members rest).Rebuilt job)
    (visible : Token.Visible site.tokens) (enough : 2 * members.size + 3 ≤ job.tree.printFuel)
    (source : before ++ gap ++ Token.spell site.tokens <+: job.tree.source)
    (converted : job.record? site.id = some record)
    (others : ∀ next left, next ++ left = before ++ gap ++ Token.spell site.tokens →
      Patched job next left rest) :
    Patched job before gap (type site shape members rest) := by
  obtain ⟨place, memberRebuilt, _⟩ := rebuilt
  rw [converted] at place
  obtain ⟨found, extent, kept⟩ := place
  obtain ⟨memberSource, bodyStart⟩ := body.members_source source
  obtain ⟨after, whole⟩ := source
  have filled : site.cursor < site.stop := by
    have positive := byteSize_spell_pos visible
    rw [tiles.cursor, tiles.stop]
    omega
  obtain ⟨fuel, printFuel⟩ : ∃ fuel, job.tree.printFuel = fuel + 1 :=
    ⟨job.tree.printFuel - 1, by omega⟩
  have printed : Prints job (fun _ => true) fuel (before ++ gap ++ Token.spell
      (site.lead ++ Code.bare (site.front shape) ++ Code.openingComments shape)) [] members :=
    prints memberTiles memberRebuilt (by omega) (by rwa [List.append_nil])
      (by rwa [List.append_nil])
  have rendered := renders_of_record converted found extent kept filled printFuel
    (printed.members _)
  have rewrites : Text.Rewrites job.tree.source [⟨site.id, job.image site.id,
      ⟨site.cursor, site.stop⟩, job.separator record ++ members.recordText job site.id record⟩]
      before gap (Token.spell site.tokens)
      (job.separator record ++ members.recordText job site.id record) := by
    rw [tiles.cursor, tiles.stop]
    exact .patch whole.symm
  refine .cons rfl (by rw [patches, converted]) (by rw [Outline.printed, converted]; rfl)
    rewrites (fun patch listed => ?_) others
  rw [List.mem_singleton.mp listed]
  exact rendered

theorem Patched.kept {offset : Nat} (body : BodyTiles offset site shape members)
    (kept : job.record? site.id = none)
    (inner : Patched job before (gap ++ Token.spell
      (site.lead ++ Code.bare (site.front shape) ++ Code.openingComments shape)) members)
    (others : ∀ next left, next ++ left = before ++ gap ++ Token.spell site.tokens →
      Patched job next left rest) :
    Patched job before gap (type site shape members rest) := by
  have rewrites := inner.rewrites.advance.extend
    (Token.spell (members.dangling shape ++ shape.closing.token :: site.trail))
  rw [← Token.spell_append, ← Token.spell_append, ← body.split] at rewrites
  exact .cons rfl (by rw [patches, kept]) (by rw [Outline.printed, kept]) rewrites inner.renders
    others

end

theorem patched {outline : Outline} {offset : Nat} {before gap : Text}
    (tiles : outline.Tiles offset) (rebuilt : outline.Rebuilt job)
    (visible : Token.Visible outline.tokens) (enough : 2 * outline.size + 2 ≤ job.tree.printFuel)
    (source : before ++ gap ++ Token.spell outline.tokens <+: job.tree.source)
    (start : offset = Text.byteSize (before ++ gap)) : Patched job before gap outline := by
  induction outline generalizing offset before gap with
  | nil => exact ⟨.nil _ before gap [], fun _ listed => absurd listed List.not_mem_nil⟩
  | leaf site node rest ih =>
      subst start
      obtain ⟨siteTiles, restTiles⟩ := tiles
      simp only [size] at enough
      rw [tokens, Token.spell_append, ← List.append_assoc] at source
      exact .cons rfl rfl rfl (.nil _ before gap _) (fun _ listed => absurd listed List.not_mem_nil)
        fun next left joined => ih restTiles rebuilt.2.2 (Token.Visible.append.mp visible).2
          (by omega) (joined ▸ source) (joined ▸ siteTiles.stop_append)
  | type site shape members rest ihMembers ihRest =>
      subst start
      obtain ⟨siteTiles, body, memberTiles, restTiles⟩ := tiles
      obtain ⟨visibleSite, visibleRest⟩ := Token.Visible.append.mp visible
      simp only [size] at enough
      rw [tokens, Token.spell_append, ← List.append_assoc] at source
      have own : before ++ gap ++ Token.spell site.tokens <+: job.tree.source :=
        (List.prefix_append _ _).trans source
      have others : ∀ next left, next ++ left = before ++ gap ++ Token.spell site.tokens →
          Patched job next left rest :=
        fun next left joined => ihRest restTiles rebuilt.2.2 visibleRest (by omega)
          (joined ▸ source) (joined ▸ siteTiles.stop_append)
      cases converted : job.record? site.id with
      | some record =>
          exact .converted siteTiles body memberTiles rebuilt visibleSite (by omega) own converted
            others
      | none =>
          obtain ⟨memberSource, bodyStart⟩ := body.members_source own
          have visibleMembers : Token.Visible members.tokens := by
            rw [body.split] at visibleSite
            exact (Token.Visible.append.mp (Token.Visible.append.mp visibleSite).1).2
          exact .kept body converted (ihMembers memberTiles rebuilt.2.1 visibleMembers (by omega)
            (by rwa [← List.append_assoc]) (by rwa [← List.append_assoc])) others

end Outline

namespace Printing

/-- Two conversions convert the same declarations with ids in a range, and have the same comments
for them. -/
structure Alike (job other : Printing) (low high : Nat) : Prop where
  source : other.tree.source = job.tree.source
  record? : ∀ id, low ≤ id → id < high → other.record? id = job.record? id
  comments : ∀ id, low ≤ id → id < high →
    other.tree.trivia.get? (other.image id) = job.tree.trivia.get? (job.image id)

variable {job other : Printing} {low high : Nat}

theorem Alike.mono (alike : job.Alike other low high) {less more : Nat} (first : low ≤ less)
    (last : more ≤ high) : job.Alike other less more :=
  ⟨alike.source,
    fun id above below => alike.record? id (Nat.le_trans first above)
      (Nat.lt_of_lt_of_le below last),
    fun id above below => alike.comments id (Nat.le_trans first above)
      (Nat.lt_of_lt_of_le below last)⟩

theorem Alike.separator_eq (alike : job.Alike other low high) (record : RecordDecl) :
    other.separator record = job.separator record := by
  simp only [separator, newline, alike.source]

theorem Alike.record_eq (alike : job.Alike other low high) {id : NodeId} (above : low ≤ id)
    (below : id < high) (record : RecordDecl) (members : List Text) :
    other.record id record members = job.record id record members := by
  simp only [Printing.record, newline, alike.source, TriviaTable.leading, TriviaTable.trailing,
    TriviaTable.dangling, alike.comments id above below]

theorem Alike.member_eq (alike : job.Alike other low high) {id : NodeId} (above : low ≤ id)
    (below : id < high) (indent : Text) (source : Excerpt) (text : Text) :
    other.member indent id source text = job.member indent id source text := by
  simp only [member, newline, alike.source, TriviaTable.leading, TriviaTable.trailing,
    alike.comments id above below]

end Printing

namespace Outline

variable {job other : Printing} {low high : Nat} {outline : Outline}

/-- Declarations are printed alike by conversions that do the same with them. -/
theorem Numbered.printed_eq (numbered : outline.Numbered low high)
    (alike : job.Alike other low high) : outline.printed other = outline.printed job ∧
      ∀ indent, outline.memberTexts other indent = outline.memberTexts job indent := by
  induction outline generalizing low high with
  | nil => exact ⟨rfl, fun _ => rfl⟩
  | leaf site node rest ih =>
      obtain ⟨rfl, numberedRest⟩ := numbered
      have below : site.id < high := numberedRest.le
      obtain ⟨printedRest, textsRest⟩ :=
        ih numberedRest (alike.mono (Nat.le_succ _) (Nat.le_refl _))
      refine ⟨by rw [printed, printed, printedRest], fun indent => ?_⟩
      rw [memberTexts, memberTexts, textsRest, alike.member_eq (Nat.le_refl _) below, alike.source]
  | type site shape members rest ihMembers ihRest =>
      obtain ⟨numberedMembers, numberedRest⟩ := numbered
      have above : low ≤ site.id := numberedMembers.le
      have below : site.id < high := numberedRest.le
      obtain ⟨printedMembers, textsMembers⟩ :=
        ihMembers numberedMembers (alike.mono (Nat.le_refl _) (Nat.le_of_lt below))
      obtain ⟨printedRest, textsRest⟩ :=
        ihRest numberedRest (alike.mono (Nat.le_succ_of_le above) (Nat.le_refl _))
      have converted := alike.record? site.id above below
      constructor
      · rw [printed, printed, printedMembers, printedRest, converted]
        cases job.record? site.id with
        | none => rfl
        | some record =>
            dsimp only
            rw [alike.separator_eq, alike.record_eq above below, textsMembers]
      · intro indent
        rw [memberTexts, memberTexts, printedMembers, textsRest, converted, alike.source]
        cases job.record? site.id with
        | none =>
            dsimp only
            rw [alike.member_eq above below]
        | some record =>
            dsimp only
            rw [alike.record_eq above below, textsMembers]

end Outline

end JavaRecords
