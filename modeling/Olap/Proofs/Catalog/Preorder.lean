import Olap.Proofs.Catalog.Ledger
import Olap.Proofs.Catalog.Lookup

/-!
# The order of the members of a hierarchy

In a hierarchy of a cube that has been built, the members are the accepted ones in pre-order, and the
place of a member says where its subtree is (`CubeBuilder.build_arranged`).
-/

set_option autoImplicit false

namespace Olap

/-! ## Lineages -/

namespace Member

def label (m : Member) : String × String := (m.name, m.uniqueName)

@[simp] theorem length_ofLineage (above : List MemberNode) : (ofLineage above).length = above.length := by
  induction above with
  | nil => rfl
  | cons p above ih => rw [ofLineage, List.length_cons, List.length_cons, ih]

theorem length_ancestors (m : Member) : m.ancestors.length = m.lineage.length := length_ofLineage _

/-- The parent is the first of the ancestors, and the others are its own. -/
theorem parent?_eq_some {m p : Member} : m.parent? = some p ↔ m.ancestors = p :: p.ancestors := by
  unfold parent? ancestors
  rcases m with ⟨node, _ | ⟨q, above⟩⟩
  · simp [ofLineage]
  · rcases p with ⟨p, lineage⟩
    simp only [Option.some.injEq, ofLineage, List.cons.injEq]
    constructor
    · rintro heq
      cases heq
      exact ⟨rfl, rfl⟩
    · exact And.left

theorem parent?_eq_none {m : Member} : m.parent? = none ↔ m.ancestors = [] := by
  unfold parent? ancestors
  rcases m with ⟨node, _ | ⟨q, above⟩⟩ <;> simp [ofLineage]

end Member

/-! ## Finished trees -/

namespace HierarchyDraft

/-- What holds at every node of a finished hierarchy: of its ancestors, its level, and the members just
below it. -/
def Placed (levels : List Level) (log : List Accepted) (above : List Member) (m : Member)
    (below : List Member) : Prop :=
  m.ancestors = above ∧ m.depth = above.length ∧ levels[m.depth]? = some m.level ∧
    below.map (·.label) = (log.filter (·.isBelow (some m.uniqueName))).map (·.label)

mutual

theorem buildTree_placed {levels : List Level} {log : List Accepted}
    (hlevels : ∀ (i : Nat) (l : Level), levels[i]? = some l → l.depth = i) :
    ∀ (drafts : List MemberDraft) (above : List MemberNode) (level : Level) (next : Nat)
      (t : Tree MemberDraft), levels[above.length]? = some level → drafts.length = above.length →
      t.Each (Noted levels.length log) drafts →
      let built := (buildTree level (levels.drop (above.length + 1)) above next t).1
      built.value.label = t.value.label ∧
        built.preorder.map (·.label) = t.preorder.map (·.label) ∧
        built.Each (Placed levels log) (Member.ofLineage above)
  | drafts, above, level, next, .node d ts, hlevel, hlength, ⟨⟨hdepth, hfits, hbelow⟩, hts⟩ => by
    let self : MemberNode := ⟨d.name, d.uniqueName, level, d.kind, next⟩
    obtain ⟨htops, hmembers, hnodes⟩ := buildForest_placed hlevels (d :: drafts) (self :: above)
      (next + 1) ts (congrArg (· + 1) hlength) hts
    have hself : level.depth = above.length := hlevels _ _ hlevel
    refine ⟨rfl, ?_, ⟨rfl, ?_, ?_, ?_⟩, hnodes⟩
    · exact congrArg (d.label :: ·) hmembers
    · show level.depth = (Member.ofLineage above).length
      rw [hself, Member.length_ofLineage]
    · show levels[level.depth]? = some level
      rw [hself, hlevel]
    · rw [List.map_map]
      rw [List.map_map] at hbelow
      exact htops.trans hbelow

/-- A finished forest has the members of its draft, each with its level and its ancestors. -/
theorem buildForest_placed {levels : List Level} {log : List Accepted}
    (hlevels : ∀ (i : Nat) (l : Level), levels[i]? = some l → l.depth = i) :
    ∀ (drafts : List MemberDraft) (above : List MemberNode) (next : Nat)
      (ts : List (Tree MemberDraft)), drafts.length = above.length →
      Tree.EachIn (Noted levels.length log) drafts ts →
      let built := (buildForest (levels.drop above.length) above next ts).1
      built.map (·.value.label) = ts.map (·.value.label) ∧
        (Tree.preorderAll built).map (·.label) = (Tree.preorderAll ts).map (·.label) ∧
        Tree.EachIn (Placed levels log) (Member.ofLineage above) built
  | drafts, above, next, [], _, _ => by
    rw [buildForest]
    exact ⟨rfl, rfl, trivial⟩
  | drafts, above, next, .node d us :: ts, hlength, ⟨ht, hts⟩ => by
    -- there is a level for the tops of the forest
    obtain ⟨hdepth, hfits, -⟩ := ht.1
    rw [hdepth, hlength] at hfits
    have hlevel := List.getElem?_eq_getElem hfits
    obtain ⟨hvalue, hmembers, hnodes⟩ := buildTree_placed hlevels drafts above levels[above.length]
      next (.node d us) hlevel hlength ht
    obtain ⟨hvalues, hothers, hrest⟩ := buildForest_placed hlevels drafts above
      (buildTree levels[above.length] (levels.drop (above.length + 1)) above next (.node d us)).2 ts
      hlength hts
    rw [List.drop_eq_getElem_cons hfits] at hvalues hothers hrest ⊢
    rw [buildForest]
    refine ⟨?_, ?_, hnodes, hrest⟩
    · rw [List.map_cons, List.map_cons, hvalue, hvalues]
    · rw [Tree.preorderAll, Tree.preorderAll, List.map_append, List.map_append, hmembers, hothers]

end

end HierarchyDraft

/-! ## Ancestors -/

theorem Member.length_lineage_lt {above : List MemberNode} {m : Member} (hm : m ∈ ofLineage above) :
    m.lineage.length < above.length := by
  induction above with
  | nil => cases hm
  | cons p above ih =>
    rw [ofLineage] at hm
    rcases List.mem_cons.1 hm with rfl | hm
    · exact Nat.lt_succ_self _
    · exact Nat.lt_succ_of_lt (ih hm)

/-- A climb meets the members of a lineage, as long as a member's depth tells how long its lineage is. -/
theorem Member.climbsTo_iff {top : Member} {chain : List MemberNode}
    (hname : ∀ m ∈ ofLineage chain, m.uniqueName = top.uniqueName → m = top)
    (hdepth : ∀ m ∈ ofLineage chain, m.depth = m.lineage.length)
    (htop : top.depth = top.lineage.length) :
    climbsTo top chain = true ↔ top ∈ ofLineage chain := by
  induction chain with
  | nil => simp [climbsTo, ofLineage]
  | cons n above ih =>
    rw [ofLineage] at hname hdepth ⊢
    obtain ⟨hn, hname⟩ := List.forall_mem_cons.1 hname
    obtain ⟨hd, hdepth⟩ := List.forall_mem_cons.1 hdepth
    rw [climbsTo, List.mem_cons]
    by_cases hself : n.uniqueName = top.uniqueName
    · rw [if_pos (beq_iff_eq.2 hself)]
      exact iff_of_true rfl (.inl (hn hself).symm)
    · rw [if_neg (by simpa using hself)]
      have hother : top ≠ ⟨n, above⟩ := by
        rintro rfl
        exact hself rfl
      split
      · -- a member above one of smaller depth has a smaller depth still
        rename_i hlow
        have hhigh : above.length < top.lineage.length := by
          rw [← htop, ← show n.level.depth = above.length from hd]
          exact hlow
        refine iff_of_false Bool.false_ne_true ?_
        rintro (heq | hmem)
        · exact hother heq
        · have := length_lineage_lt hmem
          omega
      · rw [ih hname hdepth]
        exact (or_iff_right hother).symm

namespace Hierarchy

/-- The members of a hierarchy stand in pre-order, and are those that a log lists. -/
structure Arranged (h : Hierarchy) (log : List Accepted) : Prop where
  members : (h.members.map (·.label)).Perm (log.map (·.label))
  distinct : (h.members.map (·.uniqueName)).Nodup
  ordinal : ∀ (i : Nat) (m : Member), h.members[i]? = some m → m.ordinal = i
  parent : ∀ m ∈ h.members, ∀ p, m.parent? = some p → p ∈ h.members
  depth : ∀ m ∈ h.members, m.depth = m.parent?.elim 0 (·.depth + 1)
  level : ∀ m ∈ h.members, h.levels[m.depth]? = some m.level
  roots : ∀ n, n ∈ h.roots ↔ n ∈ h.members ∧ n.parent? = none
  roots_order : h.roots.map (·.label) = (log.filter (·.isBelow none)).map (·.label)
  children : ∀ m ∈ h.members, ∀ n, n ∈ h.children m ↔ n ∈ h.members ∧ n.parent? = some m
  children_order : ∀ m ∈ h.members, (h.children m).map (·.label) =
    (log.filter (·.isBelow (some m.uniqueName))).map (·.label)
  subtree : ∀ m ∈ h.members, ∃ t, h.subtree? m = some t ∧ t.value = m ∧
    (h.members.drop m.ordinal).take t.preorder.length = t.preorder ∧
    ∀ n ∈ h.members, (n.isWithin m = true ↔ n = m ∨ m ∈ n.ancestors) ∧
      (n.isWithin m = true ↔
        m.ordinal ≤ n.ordinal ∧ n.ordinal < m.ordinal + t.preorder.length)

theorem Regular.parent_mem {h : Hierarchy} (hregular : h.Regular) {m p : Member}
    (hm : m ∈ h.members) (hp : m.parent? = some p) : p ∈ h.members := by
  refine hregular.ancestors m hm p ?_
  rw [Member.parent?_eq_some.1 hp]
  exact List.mem_cons_self

section
variable {h : Hierarchy} {log : List Accepted}
  (hnodes : Tree.EachIn (HierarchyDraft.Placed h.levels log) [] h.forest)
include hnodes

theorem traces_of_placed : Tree.EachIn (Tree.Traces Member.ancestors) [] h.forest :=
  hnodes.imp fun _ _ _ _ hplaced => hplaced.1

theorem length_lineage_of_placed {m : Member} (hm : m ∈ h.members) : m.depth = m.lineage.length := by
  obtain ⟨above, below, habove, hdepth, -⟩ := hnodes.exists_of_mem m hm
  rw [hdepth, ← habove, m.length_ancestors]

theorem mem_roots_iff {n : Member} : n ∈ h.roots ↔ n ∈ h.members ∧ n.parent? = none := by
  rw [Member.parent?_eq_none]
  constructor
  · intro hn
    have hmem := Tree.map_value_subset h.forest hn
    exact ⟨hmem, ((traces_of_placed hnodes).mem_tops_iff hmem).1 hn⟩
  · rintro ⟨hn, hancestors⟩
    exact ((traces_of_placed hnodes).mem_tops_iff hn).2 hancestors

variable (hregular : h.Regular)
include hregular

/-- A member is one level below its parent. -/
theorem depth_eq {m : Member} (hm : m ∈ h.members) : m.depth = m.parent?.elim 0 (·.depth + 1) := by
  rw [length_lineage_of_placed hnodes hm, ← m.length_ancestors]
  rcases hp : m.parent? with _ | p
  · rw [Member.parent?_eq_none.1 hp]
    rfl
  · rw [Member.parent?_eq_some.1 hp, List.length_cons, p.length_ancestors,
      ← length_lineage_of_placed hnodes (hregular.parent_mem hm hp)]
    rfl

/-- The subtree of a member is one block of the members. -/
theorem exists_block {m : Member} (hm : m ∈ h.members) : ∃ t before after, h.subtree? m = some t ∧
    t.value = m ∧ h.members = before ++ t.preorder ++ after ∧
    t.Each (HierarchyDraft.Placed h.levels log) m.ancestors := by
  have hself : (m == m) = true := beq_self_eq_true m.uniqueName
  obtain ⟨t, ht⟩ := Option.isSome_iff_exists.1 (Tree.findIn?_of_mem (· == m) hm hself)
  obtain ⟨hvalue, ⟨above, heach⟩, before, after, hsplit⟩ := Tree.findIn?_spec (· == m) hnodes ht
  have htop : t.value = m := List.inj_on_of_nodup_map hregular.names
    (Tree.value_mem_of_findIn? ht) hm (eq_of_beq hvalue)
  refine ⟨t, before, after, ht, htop, hsplit, ?_⟩
  obtain ⟨v, ts⟩ := t
  obtain rfl : v = m := htop
  rwa [show v.ancestors = above from heach.1.1]

theorem mem_block_iff {m n : Member} (hn : n ∈ h.members) {t : Tree Member}
    (ht : h.subtree? m = some t) (hm : t.value = m) :
    n ∈ t.preorder ↔ n = m ∨ m ∈ n.ancestors := by
  rw [← hm]
  exact Tree.mem_preorder_iff (traces_of_placed hnodes) hregular.names.of_map ht hn

end

/-- The members of a block are those with an ordinal in its range. -/
theorem mem_block_iff_ordinal {h : Hierarchy} {before block after : List Member}
    (hordinals : h.members.map (·.ordinal) = List.range h.members.length)
    (hsplit : h.members = before ++ block ++ after) {n : Member} (hn : n ∈ h.members) :
    n ∈ block ↔ before.length ≤ n.ordinal ∧ n.ordinal < before.length + block.length := by
  obtain ⟨i, hi⟩ := List.getElem?_of_mem hn
  have hordinal := h.ordinal_of_getElem? hordinals hi
  constructor
  · intro hmem
    obtain ⟨j, hj⟩ := List.getElem?_of_mem hmem
    obtain ⟨hlt, -⟩ := List.getElem?_eq_some_iff.1 hj
    have hplace : h.members[before.length + j]? = some n := by
      rw [hsplit, List.append_assoc, List.getElem?_append_right (Nat.le_add_right _ _),
        Nat.add_sub_cancel_left, List.getElem?_append_left hlt, hj]
    rw [h.ordinal_of_getElem? hordinals hplace]
    omega
  · rintro ⟨hfrom, hto⟩
    rw [← hordinal, hsplit, List.append_assoc, List.getElem?_append_right hfrom,
      List.getElem?_append_left (by omega)] at hi
    exact List.mem_of_getElem? hi

section
variable {h : Hierarchy} {log : List Accepted}
  (hnodes : Tree.EachIn (HierarchyDraft.Placed h.levels log) [] h.forest) (hregular : h.Regular)
include hnodes hregular

theorem isWithin_iff {n m : Member} (hn : n ∈ h.members) (hm : m ∈ h.members) :
    n.isWithin m = true ↔ n = m ∨ m ∈ n.ancestors := by
  have hchain : ∀ a ∈ Member.ofLineage (n.toMemberNode :: n.lineage), a ∈ h.members :=
    List.forall_mem_cons.2 ⟨hn, hregular.ancestors n hn⟩
  rw [Member.isWithin, Member.climbsTo_iff]
  · rw [Member.ofLineage, List.mem_cons]
    exact or_congr_left eq_comm
  · exact fun a ha hname => List.inj_on_of_nodup_map hregular.names (hchain a ha) hm hname
  · exact fun a ha => length_lineage_of_placed hnodes (hchain a ha)
  · exact length_lineage_of_placed hnodes hm

theorem mem_children_iff {m n : Member} (hm : m ∈ h.members) :
    n ∈ h.children m ↔ n ∈ h.members ∧ n.parent? = some m := by
  obtain ⟨t, before, after, ht, htop, hsplit, heach⟩ := exists_block hnodes hregular hm
  obtain ⟨v, ts⟩ := t
  obtain rfl : v = m := htop
  have hchildren : h.children v = ts.map Tree.value := by rw [children, ht]; rfl
  have htraces : Tree.EachIn (Tree.Traces Member.ancestors) (v :: v.ancestors) ts :=
    heach.2.imp fun _ _ _ _ hplaced => hplaced.1
  rw [hchildren, Member.parent?_eq_some]
  constructor
  · intro hn
    have hbelow := Tree.map_value_subset ts hn
    refine ⟨?_, (htraces.mem_tops_iff hbelow).1 hn⟩
    rw [hsplit, Tree.preorder]
    exact List.mem_append_left _ (List.mem_append_right _ (List.mem_cons_of_mem v hbelow))
  · rintro ⟨hn, hancestors⟩
    have hblock : n ∈ (Tree.node v ts).preorder := by
      rw [mem_block_iff hnodes hregular hn ht rfl, hancestors]
      exact .inr List.mem_cons_self
    rw [Tree.preorder] at hblock
    rcases List.mem_cons.1 hblock with rfl | hbelow
    · have hlength := congrArg List.length hancestors
      simp at hlength
    · exact (htraces.mem_tops_iff hbelow).2 hancestors

theorem labels_children {m : Member} (hm : m ∈ h.members) : (h.children m).map (·.label) =
    (log.filter (·.isBelow (some m.uniqueName))).map (·.label) := by
  obtain ⟨t, before, after, ht, htop, hsplit, heach⟩ := exists_block hnodes hregular hm
  obtain ⟨v, ts⟩ := t
  obtain rfl : v = m := htop
  obtain ⟨-, -, -, hbelow⟩ := heach.1
  rw [children, ht]
  exact hbelow

/-- The block of a member starts with the member and holds what lies within it. -/
theorem exists_subtree (hordinals : h.members.map (·.ordinal) = List.range h.members.length)
    {m : Member} (hm : m ∈ h.members) : ∃ t, h.subtree? m = some t ∧ t.value = m ∧
      (h.members.drop m.ordinal).take t.preorder.length = t.preorder ∧
      ∀ n ∈ h.members, (n.isWithin m = true ↔ n = m ∨ m ∈ n.ancestors) ∧
        (n.isWithin m = true ↔
          m.ordinal ≤ n.ordinal ∧ n.ordinal < m.ordinal + t.preorder.length) := by
  obtain ⟨t, before, after, ht, htop, hsplit, -⟩ := exists_block hnodes hregular hm
  have hplace : h.members[before.length]? = some m := by
    obtain ⟨v, ts⟩ := t
    obtain rfl : v = m := htop
    rw [hsplit, Tree.preorder]
    simp
  have hordinal := h.ordinal_of_getElem? hordinals hplace
  refine ⟨t, ht, htop, ?_, fun n hn => ?_⟩
  · rw [hordinal, hsplit, List.append_assoc, List.drop_left, List.take_left]
  · have hwithin := isWithin_iff hnodes hregular hn hm
    refine ⟨hwithin, hwithin.trans ?_⟩
    rw [← mem_block_iff hnodes hregular hn ht htop, hordinal]
    exact mem_block_iff_ordinal hordinals hsplit hn

end

end Hierarchy

/-! ## Finished hierarchies -/

theorem HierarchyDraft.depth_of_getElem?_buildLevels {d : HierarchyDraft} {ordinal i : Nat}
    {l : Level} (hl : (d.buildLevels ordinal)[i]? = some l) : l.depth = i := by
  rw [buildLevels, List.getElem?_mapIdx] at hl
  obtain ⟨name, -, rfl⟩ := Option.map_eq_some_iff.1 hl
  rfl

/-- A finished hierarchy has the members of its draft, and each node knows where it stands. -/
theorem HierarchyDraft.Records.placed {d : HierarchyDraft} {log : List Accepted}
    (hr : d.Records log) {dimension : String} {kind : DimensionKind} {ordinal : Nat} {h : Hierarchy}
    (hb : d.build dimension kind ordinal = .ok h) :
    h.forest.map (·.value.label) = d.forest.map (·.value.label) ∧
      h.members.map (·.label) = d.members.map (·.label) ∧
      Tree.EachIn (Placed h.levels log) [] h.forest := by
  unfold build at hb
  dsimp only at hb
  split at hb
  · cases hb
    have hfits : d.levels.length = (d.buildLevels ordinal).length := by simp [buildLevels]
    have hnoted := hr.nodes
    rw [hfits] at hnoted
    exact buildForest_placed (fun _ _ => depth_of_getElem?_buildLevels) [] [] 0 d.forest rfl hnoted
  · cases hb

theorem HierarchyDraft.Records.arranged {d : HierarchyDraft} {log : List Accepted}
    (hr : d.Records log) (hd : d.NamesDistinct) {dimension : String} {kind : DimensionKind}
    {ordinal : Nat} {h : Hierarchy} (hb : d.build dimension kind ordinal = .ok h) :
    h.Arranged log := by
  obtain ⟨hregular, -⟩ := build_regular hd hb
  have hordinals := build_ordinals hb
  obtain ⟨hroots, hmembers, hnodes⟩ := hr.placed hb
  constructor
  · rw [hmembers]
    exact hr.members
  · exact hregular.names
  · exact fun i m => h.ordinal_of_getElem? hordinals
  · exact fun m hm p hp => hregular.parent_mem hm hp
  · exact fun m hm => Hierarchy.depth_eq hnodes hregular hm
  · intro m hm
    obtain ⟨above, below, -, -, hlevel, -⟩ := hnodes.exists_of_mem m hm
    exact hlevel
  · exact fun n => Hierarchy.mem_roots_iff hnodes
  · rw [Hierarchy.roots, List.map_map]
    exact hroots.trans hr.roots
  · exact fun m hm n => Hierarchy.mem_children_iff hnodes hregular hm
  · exact fun m hm => Hierarchy.labels_children hnodes hregular hm
  · exact fun m hm => Hierarchy.exists_subtree hnodes hregular hordinals hm

/-- Every hierarchy of a cube that has been built comes from a draft, with a record of its members. -/
theorem Cube.Built.exists_records {c : Cube} (hc : c.Built) {h : Hierarchy} (hh : h ∈ c.hierarchies) :
    ∃ (d : HierarchyDraft) (log : List Accepted) (dimension : String) (kind : DimensionKind)
      (ordinal : Nat), d.Records log ∧ d.NamesDistinct ∧ d.build dimension kind ordinal = .ok h := by
  obtain ⟨name, steps, hb⟩ := hc
  have hproper := CubeBuilder.proper_foldl (CubeBuilder.proper_empty name) steps
  have htallies := CubeBuilder.tallies_ledger (CubeBuilder.tallies_empty name)
    (CubeBuilder.proper_empty name) steps
  obtain ⟨dimension, hdimension, hh⟩ := List.mem_flatMap.1 hh
  obtain ⟨draft, hdraft, first, hbuild⟩ :=
    exists_mem_of_forall₂ (CubeBuilder.build_forall₂ hb) dimension hdimension
  obtain ⟨-, -, hhierarchies⟩ := DimensionDraft.build_ok hbuild
  obtain ⟨d, hd, ordinal, hk⟩ := exists_mem_of_forall₂ hhierarchies h hh
  have hplaced : (draft.name, d) ∈ (steps.foldl CubeBuilder.take (.empty name)).placed :=
    List.mem_flatMap.2 ⟨draft, hdraft, List.mem_map_of_mem hd⟩
  exact ⟨d, _, _, _, ordinal, htallies.records _ hplaced, hproper.names_of_placed hplaced, hk⟩

/-- In a cube that has been built the nodes of every hierarchy know where they stand. -/
theorem Cube.Built.exists_placed {c : Cube} (hc : c.Built) {h : Hierarchy} (hh : h ∈ c.hierarchies) :
    ∃ log, Tree.EachIn (HierarchyDraft.Placed h.levels log) [] h.forest := by
  obtain ⟨d, log, dimension, kind, ordinal, hr, -, hb⟩ := hc.exists_records hh
  obtain ⟨-, -, hnodes⟩ := hr.placed hb
  exact ⟨log, hnodes⟩

/-- The entry is for the hierarchy, which is told by its name and that of its dimension. -/
def Accepted.isOf (h : Hierarchy) (e : Accepted) : Bool :=
  s!"[{e.dimension}]" == h.dimension && e.hierarchy == h.uniqueName

theorem bracketed_inj {m n : String} (h : s!"[{m}]" = s!"[{n}]") : m = n := by
  have hlists := congrArg String.toList h
  exact String.toList_inj.1 (by simpa [toString] using hlists)

/-- In every hierarchy of a cube that has been built, the members that were accepted stand in pre-order,
and so do those below each of them. -/
theorem CubeBuilder.build_arranged {name : String} {steps : List BuildStep} {c : Cube}
    (hb : (steps.foldl CubeBuilder.take (.empty name)).build = .ok c) {h : Hierarchy}
    (hh : h ∈ c.hierarchies) :
    h.Arranged (((CubeBuilder.empty name).ledger steps).filter (·.isOf h)) := by
  have hproper := CubeBuilder.proper_foldl (CubeBuilder.proper_empty name) steps
  have htallies := CubeBuilder.tallies_ledger (CubeBuilder.tallies_empty name)
    (CubeBuilder.proper_empty name) steps
  obtain ⟨dimension, hdimension, hh⟩ := List.mem_flatMap.1 hh
  obtain ⟨draft, hdraft, first, hbuild⟩ :=
    exists_mem_of_forall₂ (CubeBuilder.build_forall₂ hb) dimension hdimension
  obtain ⟨-, -, hhierarchies⟩ := DimensionDraft.build_ok hbuild
  obtain ⟨d, hd, ordinal, hk⟩ := exists_mem_of_forall₂ hhierarchies h hh
  have hplaced : (draft.name, d) ∈ (steps.foldl CubeBuilder.take (.empty name)).placed :=
    List.mem_flatMap.2 ⟨draft, hdraft, List.mem_map_of_mem hd⟩
  obtain ⟨hname, hdimensionName⟩ : h.uniqueName = d.uniqueName ∧ h.dimension = s!"[{draft.name}]" := by
    refine ⟨?_, (HierarchyDraft.build_names hk).1⟩
    unfold HierarchyDraft.build at hk
    dsimp only at hk
    split at hk <;> cases hk
    rfl
  have hlog (e : Accepted) : e.isOf h = e.isIn draft.name d.uniqueName := by
    have hdim : s!"[{e.dimension}]" = s!"[{draft.name}]" ↔ e.dimension = draft.name :=
      ⟨bracketed_inj, fun heq => by rw [heq]⟩
    rw [Bool.eq_iff_iff, CubeBuilder.isIn_iff, Accepted.isOf, Bool.and_eq_true, beq_iff_eq,
      beq_iff_eq, hname, hdimensionName, hdim]
  rw [List.filter_congr fun e _ => hlog e]
  exact (htallies.records _ hplaced).arranged (hproper.names_of_placed hplaced) hk

namespace Sample

/-- The quarter is added after both years, but stands between them. -/
def quarterSteps : List BuildStep :=
  [.dimension "Time" .time, .hierarchy "Time" none false ["Year", "Quarter"],
    .member "[Time]" none "1997", .member "[Time]" none "1998",
    .member "[Time]" (some "[Time].[1997]") "Q1"]

theorem build_arranged_quarter : ∃ c h,
    (quarterSteps.foldl CubeBuilder.take (.empty "Sales")).build = .ok c ∧ h ∈ c.hierarchies ∧
      h.members.map (·.name) = ["1997", "Q1", "1998"] ∧
      (((CubeBuilder.empty "Sales").ledger quarterSteps).filter (·.isOf h)).map (·.name) =
        ["1997", "1998", "Q1"] ∧
      h.Arranged (((CubeBuilder.empty "Sales").ledger quarterSteps).filter (·.isOf h)) := by
  have hruns : (quarterSteps.foldl CubeBuilder.take (.empty "Sales")).build.toOption.map (fun c =>
      c.hierarchies.head?.map fun h => (h.members.map (·.name),
        (((CubeBuilder.empty "Sales").ledger quarterSteps).filter (·.isOf h)).map (·.name))) =
      some (some (["1997", "Q1", "1998"], ["1997", "1998", "Q1"])) := by
    decide +kernel
  obtain ⟨c, hc, hfirst⟩ := exists_ok_of_map hruns
  obtain ⟨h, hh, hnames⟩ := Option.map_eq_some_iff.1 hfirst
  obtain ⟨hmembers, hlog⟩ := Prod.mk.inj hnames
  have hmem := List.mem_of_head? hh
  exact ⟨c, h, hc, hmem, hmembers, hlog, CubeBuilder.build_arranged hc hmem⟩

end Sample

end Olap
