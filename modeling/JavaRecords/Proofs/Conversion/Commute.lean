import JavaRecords.Proofs.Conversion.Single

set_option autoImplicit false

namespace JavaRecords

namespace SyntaxTree

variable {tree : SyntaxTree}

/-- A declaration stands in a class, at any depth. -/
def Encloses (tree : SyntaxTree) (id inner : NodeId) : Prop :=
  ∃ holder decl, Relation.ReflTransGen tree.Holds id holder ∧ tree.class? holder = some decl ∧
    inner ∈ decl.members

theorem class?_isSome_of_reaches {id inner : NodeId}
    (path : Relation.ReflTransGen tree.Holds id inner) (isClass : (tree.class? inner).isSome) :
    (tree.class? id).isSome := by
  rcases Relation.ReflTransGen.cases_head path with rfl | ⟨next, ⟨decl, present, _⟩, _⟩
  · exact isClass
  · rw [present]
    rfl

theorem encloses_of_member {parent inner : NodeId} {decl : ClassDecl}
    (present : tree.class? parent = some decl)
    (inside : inner ∈ decl.members ∨ ∃ start ∈ decl.members, tree.Encloses start inner) :
    tree.Encloses parent inner := by
  rcases inside with member | ⟨start, listed, holder, inmost, path, presentInmost, member⟩
  · exact ⟨parent, decl, .refl, present, member⟩
  · have isClass := class?_isSome_of_reaches path (by rw [presentInmost]; rfl)
    exact ⟨holder, inmost, .head ⟨decl, present, listed, isClass⟩ path, presentInmost, member⟩

/-- A declaration in a class does not lead to a class that is not in that class. -/
theorem Encloses.free {id inner target : NodeId} (encloses : tree.Encloses id inner)
    (isClass : (tree.class? target).isSome) (outside : ¬ Relation.TransGen tree.Holds id target) :
    ¬ Relation.ReflTransGen tree.Holds inner target := by
  intro path
  obtain ⟨holder, decl, above, present, member⟩ := encloses
  have held : tree.Holds holder inner :=
    ⟨decl, present, member, class?_isSome_of_reaches path isClass⟩
  exact outside ((Relation.TransGen.tail' above held).trans_left path)

/-- Two classes neither of which stands in the other. -/
structure Apart (tree : SyntaxTree) (first second : NodeId) : Prop where
  isClass : (tree.class? first).isSome
  isClassOther : (tree.class? second).isSome
  outside : ¬ Relation.TransGen tree.Holds first second
  outsideOther : ¬ Relation.TransGen tree.Holds second first

theorem Apart.symm {first second : NodeId} (apart : tree.Apart first second) :
    tree.Apart second first :=
  ⟨apart.isClassOther, apart.isClass, apart.outsideOther, apart.outside⟩

theorem Apart.second_lt {first second : NodeId} (apart : tree.Apart first second) :
    second < tree.nodes.size := by
  obtain ⟨decl, present⟩ := Option.isSome_iff_exists.mp apart.isClassOther
  exact lt_of_class? present

def printingAfter (tree : SyntaxTree) (first second : NodeId) : Printing where
  tree := ((tree.convertClass first).tree.rebuildOf [second]).tree
  image := ((tree.convertClass first).tree.rebuildOf [second]).image ∘
    (tree.rebuildOf [first]).image
  record? id := if id ∈ [first, second] then tree.recordFor? id else none

theorem class?_eq_none_of_record {id : NodeId} {record : RecordDecl}
    (found : tree.node? id = some (.record record)) : tree.class? id = none := by
  rw [class?, found]

theorem node?_isSome_of_lt {id : NodeId} (known : id < tree.nodes.size) :
    (tree.node? id).isSome := by
  rw [node?, Array.getElem?_eq_getElem known]
  rfl

namespace Ordered

variable (ordered : tree.Ordered) {first second : NodeId}

include ordered

theorem recordFor?_convertClass {id : NodeId} (known : id < tree.nodes.size) :
    (tree.convertClass first).tree.recordFor? id = tree.recordFor? id := by
  rw [recordFor?, recordFor?, ordered.judge_convertClass known]

theorem elidedMembers_convertClass {id : NodeId} (known : id < tree.nodes.size) :
    (tree.convertClass first).tree.elidedMembers id = tree.elidedMembers id := by
  rw [elidedMembers, elidedMembers, ordered.judge_convertClass known]

/-- Declarations in a class stay in their places when the class is converted, and when another is
converted later. -/
theorem images_of_encloses (apart : tree.Apart first second) {id : NodeId}
    (encloses : tree.Encloses first id) : (tree.rebuildOf [first]).image id = id ∧
      ((tree.convertClass first).tree.rebuildOf [second]).image id = id := by
  have ⟨_, _, _, present, member⟩ := encloses
  have known := ordered.member_lt present member
  refine ⟨ordered.image_eq (encloses.free apart.isClass (ordered.acyclic first)), ?_⟩
  exact (ordered.convertClass first).image_eq fun path =>
    encloses.free apart.isClassOther apart.outside (ordered.reaches_of_convertClass known path).1

/-- Another class and the declarations in it stay in their places. -/
theorem image_of_encloses (apart : tree.Apart first second) {id : NodeId}
    (inside : tree.Encloses second id ∨ (id = second ∧ second ≠ first)) :
    (tree.rebuildOf [first]).image id = id := by
  rcases inside with encloses | ⟨rfl, different⟩
  · exact ordered.image_eq (encloses.free apart.isClass apart.outsideOther)
  · refine ordered.image_eq fun path => ?_
    rcases Relation.reflTransGen_iff_eq_or_transGen.mp path with same | strictly
    · exact different same.symm
    · exact apart.outsideOther strictly

/-- What stands in the first class keeps the place it has after the first conversion. -/
theorem map_image_of_first (apart : tree.Apart first second) {ids : List NodeId}
    (inside : ∀ id ∈ ids, tree.Encloses first id) :
    ids.map (tree.printingAfter first second).image = ids.map (tree.printingOf [first]).image := by
  refine List.map_congr_left fun id listed => ?_
  obtain ⟨own, later⟩ := ordered.images_of_encloses apart (inside id listed)
  exact (congrArg _ own).trans (later.trans own.symm)

/-- What stands in the second class has the place that the second conversion gives it. -/
theorem map_image_of_second (apart : tree.Apart first second) {ids : List NodeId}
    (inside : ∀ id ∈ ids, tree.Encloses second id) :
    ids.map (tree.printingAfter first second).image =
      ids.map ((tree.convertClass first).tree.rebuildOf [second]).image :=
  List.map_congr_left fun id listed =>
    congrArg ((tree.convertClass first).tree.rebuildOf [second]).image
      (ordered.image_of_encloses apart (Or.inl (inside id listed)))

/-- The second conversion replaces what takes the place of a class if it is the second class, and
judges it as before. -/
theorem of_lookup_image (apart : tree.Apart first second) {id : NodeId} {replacement : Replacement}
    (chosen : (replacementsOf ([second].map (tree.convertClass first).tree.judge)).lookup
      ((tree.rebuildOf [first]).image id) = some replacement) :
    id = second ∧ (tree.judge second).verdict = .replace replacement := by
  have known := apart.second_lt
  obtain ⟨isTarget, judged⟩ := (lookup_replacementsOf _ [second] _ _).mp chosen
  have key := List.mem_singleton.mp isTarget
  rw [key, ordered.judge_convertClass known] at judged
  exact ⟨((ordered.sound first).eq_of_image_lt (key.symm ▸ known)).symm.trans key, judged⟩

/-- A class that neither conversion replaces stays. -/
theorem record?_eq_none (apart : tree.Apart first second) {id : NodeId}
    (stays : (tree.printingOf [first]).record? id = none)
    (staysAfter : (replacementsOf ([second].map (tree.convertClass first).tree.judge)).lookup
      ((tree.rebuildOf [first]).image id) = none) :
    (tree.printingAfter first second).record? id = none := by
  by_cases isFirst : id = first
  · rw [← stays]
    simp [printingAfter, printingOf, isFirst]
  · by_cases isSecond : id = second
    · have looked := (tree.convertClass first).tree.map_record_lookup [second] second
      rw [ordered.image_of_encloses apart (Or.inr ⟨isSecond, isSecond ▸ isFirst⟩), isSecond]
        at staysAfter
      rw [staysAfter, if_pos (List.mem_singleton_self _),
        ordered.recordFor?_convertClass apart.second_lt] at looked
      simp [printingAfter, isSecond, ← looked]
    · simp [printingAfter, isFirst, isSecond]

theorem record_of_first (apart : tree.Apart first second) {record : RecordDecl}
    (converted : (tree.printingOf [first]).record? first = some record)
    (stored : (tree.printingOf [first]).tree.node? ((tree.printingOf [first]).image first) =
      some (.record { record with members := record.members.map (tree.printingOf [first]).image }))
    (inside : ∀ member ∈ record.members, tree.Encloses first member)
    (met : Rebuild.Met (tree.convertClass first).tree
      ((tree.convertClass first).tree.rebuildOf [second]) ((tree.rebuildOf [first]).image first)) :
    (tree.printingAfter first second).record? first = some record ∧
      (tree.printingAfter first second).tree.node? ((tree.printingAfter first second).image first) =
        some (.record { record with
          members := record.members.map (tree.printingAfter first second).image }) := by
  constructor
  · rw [← converted]
    simp [printingAfter, printingOf]
  · rw [ordered.map_image_of_first apart inside, ← stored]
    exact ((ordered.convertClass first).sound second).node?_image_of_not_class met.known
      (class?_eq_none_of_record stored)

theorem record_of_second (apart : tree.Apart first second) {decl : ClassDecl}
    {replacement : Replacement} (present : tree.class? second = some decl)
    (judged : (tree.judge second).verdict = .replace replacement)
    (inside : ∀ member ∈ decl.members, tree.Encloses second member) :
    (tree.printingAfter first second).record? second = some replacement.record ∧
      replacement.record.extent = decl.source.extent ∧
      (∀ member ∈ replacement.record.members, member ∈ decl.members) ∧
      replacement.record.members.map (tree.printingAfter first second).image =
        replacement.record.members.map
          ((tree.convertClass first).tree.rebuildOf [second]).image := by
  have kept := tree.membersKept [second] second replacement _
    ((lookup_replacementsOf tree [second] _ _).mpr ⟨List.mem_singleton_self _, judged⟩) present
  obtain ⟨_, _, _, _, _, made⟩ := replacement_of_judged judged present
  refine ⟨?_, by rw [made]; rfl, kept,
    ordered.map_image_of_second apart fun id listed => inside id (kept id listed)⟩
  simp [printingAfter, recordFor?, judged]

end Ordered

end SyntaxTree

namespace Outline

variable {source : Text} {tree : SyntaxTree} {outline : Outline} {low high : Nat}

/-- The nodes with ids in the range of some declarations are these declarations and what they
enclose. -/
theorem Stands.mem_ids_or_encloses (stands : outline.Stands source tree)
    (numbered : outline.Numbered low high) {id : NodeId} (above : low ≤ id) (below : id < high) :
    id ∈ outline.ids ∨ ∃ start ∈ outline.ids, tree.Encloses start id := by
  induction outline generalizing low high with
  | nil =>
      have same : low = high := numbered
      exact absurd (Nat.lt_of_le_of_lt above below) (by rw [same]; exact Nat.lt_irrefl _)
  | leaf site node rest ih =>
      obtain ⟨rfl, numberedRest⟩ := numbered
      rcases Nat.eq_or_lt_of_le above with rfl | behind
      · exact Or.inl List.mem_cons_self
      · exact (ih stands.2.2 numberedRest behind below).imp (List.mem_cons_of_mem _)
          fun ⟨start, listed, encloses⟩ => ⟨start, List.mem_cons_of_mem _ listed, encloses⟩
  | type site shape members rest ihMembers ihRest =>
      obtain ⟨⟨package, found⟩, _, standsMembers, standsRest⟩ := stands
      obtain ⟨numberedMembers, numberedRest⟩ := numbered
      rcases Nat.lt_trichotomy id site.id with inside | rfl | behind
      · have member := ihMembers standsMembers numberedMembers above inside
        exact Or.inr ⟨site.id, List.mem_cons_self,
          SyntaxTree.encloses_of_member (SyntaxTree.class?_of_node? found) member⟩
      · exact Or.inl List.mem_cons_self
      · exact (ihRest standsRest numberedRest behind below).imp (List.mem_cons_of_mem _)
          fun ⟨start, listed, encloses⟩ => ⟨start, List.mem_cons_of_mem _ listed, encloses⟩

/-- What takes the place of declarations stays there if nothing more is done with them. -/
theorem Rebuilt.congr {job other : Printing} (rebuilt : outline.Rebuilt job)
    (numbered : outline.Numbered low high) (source : other.tree.source = job.tree.source)
    (same : ∀ id, low ≤ id → id < high → other.image id = job.image id ∧
      other.record? id = job.record? id ∧
      other.tree.node? (job.image id) = job.tree.node? (job.image id)) :
    outline.Rebuilt other := by
  induction outline generalizing low high with
  | nil => trivial
  | leaf site node rest ih =>
      obtain ⟨rfl, numberedRest⟩ := numbered
      obtain ⟨image, _, stored⟩ := same site.id (Nat.le_refl _) numberedRest.le
      refine ⟨?_, ?_, ih rebuilt.2.2 numberedRest fun id above below =>
        same id (Nat.le_of_succ_le above) below⟩
      · rw [image, stored]
        exact rebuilt.1
      · rw [source]
        exact rebuilt.2.1
  | type site shape members rest ihMembers ihRest =>
      obtain ⟨place, memberRebuilt, restRebuilt⟩ := rebuilt
      obtain ⟨numberedMembers, numberedRest⟩ := numbered
      have last : site.id < high := numberedRest.le
      obtain ⟨image, converted, stored⟩ := same site.id numberedMembers.le last
      have inner : ∀ ids : List NodeId, (∀ id ∈ ids, id ∈ members.ids) →
          ids.map other.image = ids.map job.image := by
        intro ids among
        refine List.map_congr_left fun id listed => ?_
        obtain ⟨above, below⟩ := numberedMembers.mem_ids (among id listed)
        exact (same id above (Nat.lt_trans below last)).1
      refine ⟨?_, ihMembers memberRebuilt numberedMembers fun id above below =>
        same id above (Nat.lt_trans below last),
        ihRest restRebuilt numberedRest fun id above below =>
        same id (Nat.le_trans numberedMembers.le (Nat.le_of_succ_le above)) below⟩
      rw [converted, image, stored]
      cases chosen : job.record? site.id with
      | some record =>
          rw [chosen] at place
          dsimp only at place ⊢
          rw [inner record.members place.2.2]
          exact place
      | none =>
          rw [chosen] at place
          dsimp only at place ⊢
          rw [inner members.ids fun _ listed => listed, source]
          exact place

theorem isSome_record?_of_mem_patches {job : Printing} {patch : Patch}
    (listed : patch ∈ outline.patches job) : (job.record? patch.id).isSome := by
  induction outline with
  | nil => cases listed
  | leaf site node rest ih => exact ih listed
  | type site shape members rest ihMembers ihRest =>
      rcases List.mem_append.mp listed with here | later
      · cases converted : job.record? site.id with
        | some record =>
            rw [converted] at here
            rw [List.mem_singleton.mp here, converted]
            rfl
        | none =>
            rw [converted] at here
            exact ihMembers here
      · exact ihRest later

/-- What stands in the first class is not touched when the second is converted. -/
theorem same_inside {first second id : NodeId} (ordered : tree.Ordered)
    (apart : tree.Apart first second) (encloses : tree.Encloses first id) (before : id < first) :
    (tree.printingAfter first second).image id = (tree.printingOf [first]).image id ∧
      (tree.printingAfter first second).record? id = (tree.printingOf [first]).record? id ∧
      (tree.printingAfter first second).tree.node? ((tree.printingOf [first]).image id) =
        (tree.printingOf [first]).tree.node? ((tree.printingOf [first]).image id) := by
  have same : [id].map (tree.printingAfter first second).image =
      [id].map (tree.printingOf [first]).image :=
    ordered.map_image_of_first apart (by simpa using encloses)
  refine ⟨(List.cons.inj same).1, ?_, ?_⟩
  · have notFirst : id ≠ first := Nat.ne_of_lt before
    have notSecond : id ≠ second := by
      rintro rfl
      exact encloses.free apart.isClassOther apart.outside .refl
    simp [SyntaxTree.printingAfter, SyntaxTree.printingOf, notFirst, notSecond]
  · have ⟨_, _, _, presentHolder, listed⟩ := encloses
    have known := Nat.lt_of_lt_of_le (ordered.member_lt presentHolder listed)
      (ordered.sound first).size
    rw [show (tree.printingOf [first]).image id = id from
      (ordered.images_of_encloses apart encloses).1]
    exact ((ordered.convertClass first).sound second).nodes id known

section

variable {first second : NodeId} {site : Site} {shape : ClassShape} {members rest : Outline}

/-- The record of the first class stays when the second is converted. -/
theorem Rebuilt.after_first {record : RecordDecl} (ordered : tree.Ordered)
    (apart : tree.Apart site.id second)
    (rebuilt : (type site shape members rest).Rebuilt (tree.printingOf [site.id]))
    (converted : (tree.printingOf [site.id]).record? site.id = some record)
    (numbered : members.Numbered low site.id)
    (inside : ∀ id, low ≤ id → id < site.id → tree.Encloses site.id id)
    (met : Rebuild.Met (tree.convertClass site.id).tree
      ((tree.convertClass site.id).tree.rebuildOf [second])
      ((tree.rebuildOf [site.id]).image site.id))
    (others : rest.Rebuilt (tree.printingAfter site.id second)) :
    (type site shape members rest).Rebuilt (tree.printingAfter site.id second) := by
  obtain ⟨place, memberRebuilt, _⟩ := rebuilt
  rw [converted] at place
  obtain ⟨stored, extent, kept⟩ := place
  have member : ∀ id ∈ record.members, tree.Encloses site.id id := by
    intro id listed
    obtain ⟨above, below⟩ := numbered.mem_ids (kept id listed)
    exact inside id above below
  obtain ⟨again, stays⟩ := ordered.record_of_first apart converted stored member met
  refine ⟨?_, memberRebuilt.congr numbered ((ordered.convertClass site.id).sound second).source
    fun id above below => same_inside ordered apart (inside id above below) below, others⟩
  rw [again]
  exact ⟨stays, extent, kept⟩

/-- A class that the first conversion leaves a class becomes its record if it is the second, and
stays a class otherwise. -/
theorem place_after (ordered : tree.Ordered) (apart : tree.Apart first second)
    {held decl : ClassDecl} (unconverted : (tree.printingOf [first]).record? site.id = none)
    (present : tree.class? site.id = some held) (ids : held.members = members.ids)
    (extent : held.source.extent = ⟨site.cursor, site.stop⟩)
    (member : ∀ id ∈ members.ids, tree.Encloses site.id id)
    (declMembers : decl.members = members.ids.map (tree.printingOf [first]).image)
    (declSource : decl.source = (site.placed (tree.printingOf [first]).tree.source).source)
    (stored : (tree.convertClass first).tree.class? ((tree.rebuildOf [first]).image site.id) =
      some decl)
    (met : Rebuild.Met (tree.convertClass first).tree
      ((tree.convertClass first).tree.rebuildOf [second])
      ((tree.rebuildOf [first]).image site.id)) :
    let job := tree.printingAfter first second
    match job.record? site.id with
    | some record =>
        job.tree.node? (job.image site.id) = some (.record
          { record with members := record.members.map job.image }) ∧
        record.extent = ⟨site.cursor, site.stop⟩ ∧ ∀ member ∈ record.members, member ∈ members.ids
    | none => ∃ decl : ClassDecl, decl.members = members.ids.map job.image ∧
        decl.source = (site.placed job.tree.source).source ∧
        job.tree.node? (job.image site.id) = some (.classDecl decl) := by
  have sound := (ordered.convertClass first).sound second
  obtain ⟨_, later⟩ := sound.node?_image_of_class met stored
  intro job
  cases chosen : (replacementsOf ([second].map (tree.convertClass first).tree.judge)).lookup
      ((tree.rebuildOf [first]).image site.id) with
  | some replacement =>
      rw [chosen] at later
      obtain ⟨isSecond, judged⟩ := ordered.of_lookup_image apart chosen
      subst isSecond
      rw [← ids] at member ⊢
      obtain ⟨again, sameExtent, kept, images⟩ :=
        ordered.record_of_second apart present judged member
      rw [again]
      refine ⟨?_, sameExtent.trans extent, kept⟩
      rw [images]
      exact later
  | none =>
      rw [chosen] at later
      rw [ordered.record?_eq_none apart unconverted chosen]
      have same : job.tree.source = (tree.printingOf [first]).tree.source := sound.source
      refine ⟨{ decl with
        members := decl.members.map ((tree.convertClass first).tree.rebuildOf [second]).image },
        ?_, by rw [same]; exact declSource, later⟩
      rw [declMembers, List.map_map]
      rfl

end

/-- Converting another class keeps what takes the place of declarations, and puts the record of that
class or copies in the place of classes that stayed. -/
theorem Stands.rebuilt_after {first second : NodeId} (stands : outline.Stands source tree)
    (numbered : outline.Numbered low high) (ordered : tree.Ordered)
    (apart : tree.Apart first second) (rebuilt : outline.Rebuilt (tree.printingOf [first]))
    (met : ∀ id ∈ outline.ids, Rebuild.Met (tree.convertClass first).tree
      ((tree.convertClass first).tree.rebuildOf [second]) ((tree.rebuildOf [first]).image id)) :
    outline.Rebuilt (tree.printingAfter first second) := by
  have sound := (ordered.convertClass first).sound second
  have before := ordered.sound first
  induction outline generalizing low high with
  | nil => trivial
  | leaf site node rest ih =>
      obtain ⟨found, plain, restRebuilt⟩ := rebuilt
      refine ⟨?_, ?_, ih stands.2.2 numbered.2 restRebuilt
        fun id listed => met id (List.mem_cons_of_mem _ listed)⟩
      · rw [← found]
        exact sound.node?_image_of_not_class (met site.id List.mem_cons_self).known
          (plain.class?_eq_none found)
      · rw [show (tree.printingAfter first second).tree.source =
          (tree.printingOf [first]).tree.source from sound.source]
        exact plain
  | type site shape members rest ihMembers ihRest =>
      obtain ⟨⟨package, here⟩, _, standsMembers, standsRest⟩ := stands
      obtain ⟨numberedMembers, numberedRest⟩ := numbered
      have present := SyntaxTree.class?_of_node? here
      have metHere := met site.id List.mem_cons_self
      have others := ihRest standsRest numberedRest rebuilt.2.2
        fun id listed => met id (List.mem_cons_of_mem _ listed)
      have inside : ∀ id, low ≤ id → id < site.id → tree.Encloses site.id id := by
        intro id above below
        exact SyntaxTree.encloses_of_member present
          (standsMembers.mem_ids_or_encloses numberedMembers above below)
      cases converted : (tree.printingOf [first]).record? site.id with
      | some record =>
          have isFirst : site.id = first := by
            by_contra different
            simp [SyntaxTree.printingOf, different] at converted
          subst isFirst
          exact rebuilt.after_first ordered apart converted numberedMembers inside metHere others
      | none =>
          obtain ⟨place, memberRebuilt, _⟩ := rebuilt
          rw [converted] at place
          obtain ⟨decl, declMembers, declSource, stored⟩ := place
          have storedClass := SyntaxTree.class?_of_node? stored
          obtain ⟨settled, _⟩ := sound.node?_image_of_class metHere storedClass
          have metMembers : ∀ id ∈ members.ids, Rebuild.Met (tree.convertClass first).tree
              ((tree.convertClass first).tree.rebuildOf [second])
              ((tree.rebuildOf [first]).image id) := by
            intro id listed
            refine ⟨?_, settled _ (by rw [declMembers]; exact List.mem_map_of_mem listed)⟩
            exact SyntaxTree.node?_isSome_of_lt
              (before.image_lt (ordered.member_lt present listed))
          have member : ∀ id ∈ members.ids, tree.Encloses site.id id := by
            intro id listed
            obtain ⟨above, below⟩ := numberedMembers.mem_ids listed
            exact inside id above below
          exact ⟨place_after ordered apart converted present rfl rfl member declMembers declSource
            storedClass metHere,
            ihMembers standsMembers numberedMembers memberRebuilt metMembers, others⟩

end Outline

namespace ParsedUnit

variable {source : Text} {tree : SyntaxTree} (unit : ParsedUnit source tree)

/-- A tree in which the classes `ids` of a source are converted, as it is to be printed. -/
structure Shows (ids : List NodeId) (job : Printing) : Prop where
  source : job.tree.source = source
  size : tree.nodes.size ≤ job.tree.nodes.size
  types : job.tree.unit.types = unit.outline.types.map job.image
  rebuilt : unit.outline.Rebuilt job
  record? : ∀ id, job.record? id = if id ∈ ids then tree.recordFor? id else none
  comments : ∀ id, id < tree.nodes.size → job.tree.trivia.get? (job.image id) =
    if id ∈ ids.flatMap tree.elidedMembers then none else tree.trivia.get? id

include unit

theorem ordered : tree.Ordered := unit.forest.before

theorem shows_printingOf {target : NodeId} (isClass : (tree.class? target).isSome) :
    unit.Shows [target] (tree.printingOf [target]) where
  source := (unit.sound_rebuildOf [target]).source.trans unit.source_eq
  size := (unit.sound_rebuildOf [target]).size
  types := by
    rw [← unit.types]
    exact congrArg CompilationUnit.types
      (Rebuild.run_sound unit.acyclic (tree.membersKept [target])).2.1
  rebuilt := unit.rebuilt_printingOf [target]
  record? _ := rfl
  comments id known := by
    rw [List.flatMap_singleton]
    exact unit.ordered.get?_image unit.tidy isClass known

/-- A later conversion meets what takes the place of the declarations. -/
theorem met_convertClass (first second : NodeId) {id : NodeId} (listed : id ∈ unit.outline.ids) :
    Rebuild.Met (tree.convertClass first).tree
      ((tree.convertClass first).tree.rebuildOf [second]) ((tree.rebuildOf [first]).image id) := by
  have before := unit.ordered.sound first
  have later := unit.ordered.convertClass first
  have met := unit.met_rebuildOf [first] listed
  refine ⟨SyntaxTree.node?_isSome_of_lt
    (before.image_lt (SyntaxTree.lt_of_node?_isSome met.known)), fun isClass => ?_⟩
  have settled := (Rebuild.run_sound later.acyclic
    ((tree.convertClass first).tree.membersKept [second])).2.2.1
  refine settled _ ?_ isClass
  obtain ⟨decl, present⟩ := Option.isSome_iff_exists.mp isClass
  obtain ⟨origin, presentBefore, _⟩ := before.class?_image met present
  rw [show (tree.convertClass first).tree.unit.types = _ from congrArg CompilationUnit.types
    (Rebuild.run_sound unit.acyclic (tree.membersKept [first])).2.1]
  refine List.mem_map_of_mem ?_
  rw [unit.types]
  exact unit.adds.stands.mem_types unit.plainLeaves listed (by rw [presentBefore]; rfl)

/-- Two conversions, one after the other, convert both classes. -/
theorem shows_printingAfter {first second : NodeId} (apart : tree.Apart first second) :
    unit.Shows [first, second] (tree.printingAfter first second) := by
  have ordered := unit.ordered
  have before := ordered.sound first
  have later := ordered.convertClass first
  have sound := later.sound second
  have known := apart.second_lt
  refine ⟨sound.source.trans (before.source.trans unit.source_eq),
    Nat.le_trans before.size sound.size, ?_, ?_, fun _ => rfl, fun id inside => ?_⟩
  · have own := congrArg CompilationUnit.types
      (Rebuild.run_sound unit.acyclic (tree.membersKept [first])).2.1
    have others := congrArg CompilationUnit.types (Rebuild.run_sound later.acyclic
      ((tree.convertClass first).tree.membersKept [second])).2.1
    rw [← unit.types, SyntaxTree.printingAfter, ← List.map_map]
    exact others.trans (congrArg _ own)
  · exact unit.adds.stands.rebuilt_after unit.numbered ordered apart
      (unit.rebuilt_printingOf [first]) fun id => unit.met_convertClass first second
  · have isClass : ((tree.convertClass first).tree.class? second).isSome := by
      rw [ordered.class?_convertClass known]
      exact apart.isClassOther
    -- a member that a record does without is not a class, so it is its own image
    have same : (tree.rebuildOf [first]).image id ∈ tree.elidedMembers second ↔
        id ∈ tree.elidedMembers second := by
      constructor
      · intro elided
        obtain ⟨holder, presentHolder, member, _⟩ := SyntaxTree.mem_elidedMembers elided
        rwa [← before.eq_of_image_lt (ordered.member_lt presentHolder member)]
      · intro elided
        obtain ⟨_, _, _, isLeaf⟩ := SyntaxTree.mem_elidedMembers elided
        rwa [before.onlyClasses.image_eq isLeaf]
    have own := ordered.get?_image unit.tidy apart.isClass inside
    have others := later.get?_image (ordered.tidy_convertClass unit.tidy first) isClass
      (before.image_lt inside)
    rw [ordered.elidedMembers_convertClass known, own] at others
    refine others.trans ?_
    simp only [same, List.flatMap_cons, List.flatMap_nil, List.append_nil, List.mem_append]
    grind

variable {unit} {ids : List NodeId} {job : Printing}

theorem Shows.print?_eq (shows : unit.Shows ids job) : job.tree.print? =
    some (unit.outline.printed job ++ unit.rest) :=
  SyntaxTree.print?_of_loggedPrint?
    (unit.loggedPrint?_eq shows.rebuilt shows.source shows.types shows.size)

theorem Shows.patched (shows : unit.Shows ids job) : unit.outline.Patched job [] [] :=
  unit.patched_of shows.rebuilt shows.source shows.size

/-- It does not matter in which order, and in how many steps, classes are converted. -/
theorem Shows.printed_eq {others : List NodeId} {other : Printing} (shows : unit.Shows ids job)
    (showsOther : unit.Shows others other) (same : ∀ id, id ∈ others ↔ id ∈ ids) :
    unit.outline.printed other = unit.outline.printed job := by
  refine (unit.numbered.printed_eq ⟨showsOther.source.trans shows.source.symm, ?_, ?_⟩).1
  · intro id _ _
    simp only [shows.record?, showsOther.record?, same]
  · intro id _ known
    simp only [shows.comments id known, showsOther.comments id known, List.mem_flatMap, same]

/-- Inside one of several classes, of which none stands in another, what is converted with them is
what is converted with the class alone. -/
theorem Shows.alike_single (shows : unit.Shows ids job) {target low : NodeId}
    (listed : target ∈ ids) (isClass : (tree.class? target).isSome)
    (apart : ∀ other ∈ ids, ¬ Relation.TransGen tree.Holds target other)
    (inside : ∀ id, low ≤ id → id < target → tree.Encloses target id) :
    job.Alike (tree.printingOf [target]) low (target + 1) := by
  have single := unit.shows_printingOf isClass
  obtain ⟨decl, present⟩ := Option.isSome_iff_exists.mp isClass
  refine ⟨single.source.trans shows.source.symm, fun id above below => ?_, fun id above below => ?_⟩
  · rw [shows.record?, single.record?]
    rcases Nat.lt_succ_iff_lt_or_eq.mp below with within | rfl
    · rw [if_neg (by simpa using Nat.ne_of_lt within)]
      split
      · rename_i other
        cases converted : tree.recordFor? id with
        | none => rfl
        | some record =>
            obtain ⟨replacement, judged, _⟩ := SyntaxTree.recordFor?_eq_some_iff.mp converted
            obtain ⟨inner, presentInner⟩ := SyntaxTree.class?_of_judged judged
            exact absurd .refl ((inside id above within).free (by rw [presentInner]; rfl)
              (apart id other))
      · rfl
    · simp [listed]
  · have known := Nat.lt_of_lt_of_le below (SyntaxTree.lt_of_class? present)
    rw [shows.comments id known, single.comments id known]
    have same : id ∈ [target].flatMap tree.elidedMembers ↔ id ∈ ids.flatMap tree.elidedMembers := by
      simp only [List.mem_flatMap, List.mem_singleton, exists_eq_left]
      refine ⟨fun elided => ⟨target, listed, elided⟩, ?_⟩
      rintro ⟨other, among, elided⟩
      obtain ⟨otherDecl, presentOther, member, isLeaf⟩ := SyntaxTree.mem_elidedMembers elided
      rcases Nat.lt_succ_iff_lt_or_eq.mp below with within | rfl
      · obtain ⟨holder, holderDecl, path, presentHolder, memberHolder⟩ := inside id above within
        have holderSame := unit.numbered.parent_unique
          (unit.parent_of_member presentHolder memberHolder)
          (unit.parent_of_member presentOther member)
        subst holderSame
        rcases Relation.reflTransGen_iff_eq_or_transGen.mp path with rfl | strictly
        · exact elided
        · exact absurd strictly (apart holder among)
      · rw [present] at isLeaf
        cases isLeaf
    simp only [same]

/-- The patch for one of several classes, of which none stands in another, is that of the class
alone. -/
theorem Shows.single_patch (shows : unit.Shows ids job)
    (isClass : ∀ id ∈ ids, (tree.class? id).isSome)
    (apart : ∀ id ∈ ids, ∀ other ∈ ids, ¬ Relation.TransGen tree.Holds id other)
    {outline : Outline} {low high : Nat} (stands : outline.Stands source tree)
    (numbered : outline.Numbered low high) {patch : Patch} (listed : patch ∈ outline.patches job) :
    { patch with record := (tree.rebuildOf [patch.id]).image patch.id } ∈
      outline.patches (tree.printingOf [patch.id]) := by
  induction outline generalizing low high with
  | nil => cases listed
  | leaf site node rest ih => exact ih stands.2.2 numbered.2 listed
  | type site shape members rest ihMembers ihRest =>
      obtain ⟨⟨package, found⟩, _, standsMembers, standsRest⟩ := stands
      obtain ⟨numberedMembers, numberedRest⟩ := numbered
      rcases List.mem_append.mp listed with here | later
      · refine List.mem_append_left _ ?_
        cases converted : job.record? site.id with
        | some record =>
            rw [converted] at here
            rw [List.mem_singleton.mp here]
            have listedSite : site.id ∈ ids := by
              by_contra absent
              rw [shows.record?, if_neg absent] at converted
              cases converted
            have alike := shows.alike_single listedSite (isClass _ listedSite) (apart _ listedSite)
              fun id above below => SyntaxTree.encloses_of_member (SyntaxTree.class?_of_node? found)
                (standsMembers.mem_ids_or_encloses numberedMembers above below)
            have own := alike.record? site.id numberedMembers.le (Nat.lt_succ_self _)
            have texts := (numberedMembers.printed_eq
              (alike.mono (Nat.le_refl _) (Nat.le_succ _))).2
            rw [own, converted]
            dsimp only
            rw [alike.separator_eq, Outline.recordText, texts,
              alike.record_eq numberedMembers.le (Nat.lt_succ_self _)]
            exact List.mem_singleton_self _
        | none =>
            rw [converted] at here
            have inner := ihMembers standsMembers numberedMembers here
            cases own : (tree.printingOf [patch.id]).record? site.id with
            | none => exact inner
            | some record =>
                have same : site.id = patch.id := by
                  by_contra different
                  simp [SyntaxTree.printingOf, different] at own
                have isConverted := Outline.isSome_record?_of_mem_patches here
                rw [← same, converted] at isConverted
                cases isConverted
      · exact List.mem_append_right _ (ihRest standsRest numberedRest later)

/-- The classes that have patches are those that are eligible, if none of the classes to convert
stands in another. -/
theorem Shows.exists_patch_iff (shows : unit.Shows ids job)
    (apart : ∀ id ∈ ids, ∀ other ∈ ids, ¬ Relation.TransGen tree.Holds id other) (id : NodeId) :
    (∃ patch ∈ unit.outline.patches job, patch.id = id) ↔
      id ∈ ids ∧ tree.isEligible id = true := by
  have isSome : ∀ id, (job.record? id).isSome ↔ id ∈ ids ∧ tree.isEligible id = true := by
    intro id
    rw [shows.record?, ← tree.judge_replaces_iff, SyntaxTree.recordFor?]
    split
    · rename_i listed
      cases (tree.judge id).verdict <;> simp [listed]
    · rename_i absent
      simp [absent]
  constructor
  · rintro ⟨patch, listed, rfl⟩
    exact (isSome patch.id).mp (Outline.isSome_record?_of_mem_patches listed)
  · rintro ⟨listed, eligible⟩
    obtain ⟨decl, _, present, _⟩ := (tree.isEligible_iff_view id).mp eligible
    have isClass : (tree.class? id).isSome := by
      rw [present]
      rfl
    obtain ⟨start, listedStart, path⟩ :
        ∃ start ∈ unit.outline.ids, Relation.ReflTransGen tree.Holds start id := by
      rcases unit.adds.stands.mem_ids_or_encloses unit.numbered (Nat.zero_le id)
        (SyntaxTree.lt_of_class? present) with top | ⟨start, listedStart, encloses⟩
      · exact ⟨id, top, .refl⟩
      · obtain ⟨holder, holderDecl, path, presentHolder, member⟩ := encloses
        exact ⟨start, listedStart, path.tail ⟨holderDecl, presentHolder, member, isClass⟩⟩
    exact Outline.exists_patch unit.adds.stands unit.plainLeaves listedStart path isClass
      ((isSome id).mpr ⟨listed, eligible⟩) fun other converted =>
        apart other ((isSome other).mp converted).1 id listed

end ParsedUnit

theorem Text.overwrite?_map_record (source : Text) (cursor : Nat) (record : Patch → NodeId)
    (patches : List Patch) :
    Text.overwrite? source cursor (patches.map fun patch => { patch with record := record patch }) =
      Text.overwrite? source cursor patches := by
  induction patches generalizing cursor with
  | nil => rfl
  | cons patch rest ih => simp only [List.map_cons, overwrite?, ih]

/-- Where neither of two classes stands in the other, converting one and then the other gives the
same text in both orders: the source in which each of the two that is eligible is written over by
the record that it becomes when it is converted alone. -/
theorem SyntaxTree.print_convertClass_convertClass {source : Text} {tree : SyntaxTree}
    (parsed : parse source = .ok tree) {first second : NodeId} (apart : tree.Apart first second) :
    ∃ patches text,
      (∀ id, (∃ patch ∈ patches, patch.id = id) ↔
        (id = first ∨ id = second) ∧ tree.isEligible id = true) ∧
      (∀ patch ∈ patches, (tree.convertClass patch.id).Converts patch.id patch.record ∧
        (tree.convertClass patch.id).Fills tree patch) ∧
      (∀ patch ∈ patches, patch.span.start < patch.span.stop) ∧
      (patches.Pairwise fun patch other => patch.span.stop ≤ other.span.start) ∧
      Text.overwrite? source 0 patches = some text ∧
      ((tree.convertClass first).tree.convertClass second).tree.print? = some text ∧
      ((tree.convertClass second).tree.convertClass first).tree.print? = some text := by
  obtain ⟨unit⟩ := ParsedUnit.exists_of_parse parsed
  have shows := unit.shows_printingAfter apart
  have reversed := unit.shows_printingAfter apart.symm
  have isClass : ∀ id ∈ [first, second], (tree.class? id).isSome := by
    simp [apart.isClass, apart.isClassOther]
  have outside : ∀ id ∈ [first, second], ∀ other ∈ [first, second],
      ¬ Relation.TransGen tree.Holds id other := by
    simp [apart.outside, apart.outsideOther, unit.acyclic first, unit.acyclic second]
  let alone (patch : Patch) : Patch :=
    { patch with record := (tree.rebuildOf [patch.id]).image patch.id }
  have filled : ∀ patch ∈ (unit.outline.patches (tree.printingAfter first second)).map alone,
      patch.span.start < patch.span.stop := by
    intro patch listed
    obtain ⟨origin, among, rfl⟩ := List.mem_map.mp listed
    exact (shows.patched.renders origin among).filled
  have written : Text.overwrite? source 0
      ((unit.outline.patches (tree.printingAfter first second)).map alone) =
        some (unit.outline.printed (tree.printingAfter first second) ++ unit.rest) := by
    rw [Text.overwrite?_map_record]
    exact unit.overwrite?_of_patched shows.patched shows.source
  refine ⟨_, _, fun id => ?_, ?_, filled, (Text.pairwise_of_overwrite? filled written).2, written,
    shows.print?_eq, ?_⟩
  · rw [← show id ∈ [first, second] ↔ id = first ∨ id = second by simp,
      ← shows.exists_patch_iff outside id]
    simp [alone]
  · intro patch listed
    obtain ⟨origin, among, rfl⟩ := List.mem_map.mp listed
    exact unit.fills_printingOf [origin.id]
      (shows.single_patch isClass outside unit.adds.stands unit.numbered among)
  · rw [← shows.printed_eq reversed (by simp [or_comm])]
    exact reversed.print?_eq

/-- Classes that hold no other class. -/
def SyntaxTree.holdsNone (tree : SyntaxTree) (id : NodeId) : Bool :=
  (tree.class? id).any fun decl => decl.members.all fun member => (tree.class? member).isNone

theorem SyntaxTree.not_transGen_of_holdsNone {tree : SyntaxTree} {id : NodeId}
    (none : tree.holdsNone id = true) (inner : NodeId) :
    ¬ Relation.TransGen tree.Holds id inner := by
  intro path
  obtain ⟨child, ⟨decl, present, listed, isClass⟩, _⟩ := Relation.TransGen.head'_iff.mp path
  rw [holdsNone, present, Option.any_some, List.all_eq_true] at none
  have absent := none child listed
  rw [Option.isNone_iff_eq_none] at absent
  rw [absent] at isClass
  cases isClass

theorem SyntaxTree.apart_of_holdsNone {tree : SyntaxTree} {first second : NodeId}
    (none : tree.holdsNone first = true) (noneOther : tree.holdsNone second = true) :
    tree.Apart first second := by
  have isClass : ∀ id, tree.holdsNone id = true → (tree.class? id).isSome := by
    intro id none
    cases present : tree.class? id with
    | none =>
        rw [holdsNone, present] at none
        cases none
    | some decl => rfl
  exact ⟨isClass first none, isClass second noneOther, not_transGen_of_holdsNone none second,
    not_transGen_of_holdsNone noneOther first⟩

/-- Two inner classes of a class that stays. -/
def twoPoints : Text :=
  "class A".toList ++ '{' :: pointSource
    ++ "class Q{private final int y;Q(int y){this.y=y;}}".toList ++ ['}']

theorem SyntaxTree.twoPoints_print_convertClass_convertClass :
    ∃ tree patches text, parse twoPoints = .ok tree ∧ tree.Apart 2 5 ∧
      tree.isEligible 2 = true ∧ tree.isEligible 5 = true ∧
      Text.overwrite? twoPoints 0 patches = some text ∧
      ((tree.convertClass 2).tree.convertClass 5).tree.print? = some text ∧
      ((tree.convertClass 5).tree.convertClass 2).tree.print? = some text := by
  obtain ⟨tree, parsed, checked⟩ := exists_ok_of_any
    (show (parse twoPoints).toOption.any (fun tree => tree.holdsNone 2 && tree.holdsNone 5
      && tree.isEligible 2 && tree.isEligible 5) = true by decide +kernel)
  simp only [Bool.and_eq_true] at checked
  obtain ⟨⟨⟨first, second⟩, eligible⟩, eligibleOther⟩ := checked
  have apart := apart_of_holdsNone first second
  obtain ⟨patches, text, _, _, _, _, written, printed, reversed⟩ :=
    print_convertClass_convertClass parsed apart
  exact ⟨tree, patches, text, parsed, apart, eligible, eligibleOther, written, printed, reversed⟩

end JavaRecords
