import Olap.Proofs.Catalog.Descendants

/-!
# Levels

Levels and members of a cube that has been built know where they stand (`Cube.Built.levelled`). So the
members of a hierarchy at the depth of a level are found by walking through the subtrees of its roots
(`Cube.Built.descendants_roots`). Looking for the name of the level finds them all, and no others if the
levels have different names (`Hierarchy.Levelled.levelMembers_eq_iff`).
-/

set_option autoImplicit false

namespace Olap

/-! ## What levels say -/

/-- The levels of a hierarchy, and the members about theirs, say where they stand. -/
structure Hierarchy.Levelled (h : Hierarchy) : Prop where
  depth : ∀ (i : Nat) (l : Level), h.levels[i]? = some l → l.depth = i
  hierarchy : ∀ l ∈ h.levels, l.hierarchy = h.uniqueName
  uniqueName : ∀ l ∈ h.levels, l.uniqueName = s!"{h.uniqueName}.[{l.name}]"
  level : ∀ m ∈ h.members, h.levels[m.depth]? = some m.level

theorem Cube.Built.levelled {c : Cube} (hc : c.Built) {h : Hierarchy} (hh : h ∈ c.hierarchies) :
    h.Levelled := by
  obtain ⟨d, log, dimension, kind, ordinal, hr, -, hb⟩ := hc.exists_records hh
  obtain ⟨-, -, hnodes⟩ := hr.placed hb
  have hlevel : ∀ m ∈ h.members, h.levels[m.depth]? = some m.level := by
    intro m hm
    obtain ⟨above, below, -, -, hlevel, -⟩ := hnodes.exists_of_mem m hm
    exact hlevel
  unfold HierarchyDraft.build at hb
  dsimp only at hb
  split at hb
  · cases hb
    refine ⟨fun i l => HierarchyDraft.depth_of_getElem?_buildLevels, ?_, ?_, hlevel⟩
    · intro l hl
      obtain ⟨i, hi, rfl⟩ := List.mem_mapIdx.1 hl
      rfl
    · intro l hl
      obtain ⟨i, hi, rfl⟩ := List.mem_mapIdx.1 hl
      rfl
  · cases hb

/-- Names in brackets behind the same name are told apart by what is in the brackets. -/
theorem bracketed_below_inj {root m n : String} (h : s!"{root}.[{m}]" = s!"{root}.[{n}]") : m = n := by
  have hlists := congrArg String.toList h
  exact String.toList_inj.1 (by simpa [toString] using hlists)

theorem Level.beq_iff {l k : Level} : (l == k) = true ↔ l.uniqueName = k.uniqueName := by
  show (l.uniqueName == k.uniqueName) = true ↔ _
  rw [beq_iff_eq]

namespace Hierarchy.Levelled

variable {h : Hierarchy} (hlevelled : h.Levelled)
include hlevelled

theorem hierarchy_eq {m : Member} (hm : m ∈ h.members) : m.hierarchy = h.uniqueName :=
  hlevelled.hierarchy _ (List.mem_of_getElem? (hlevelled.level m hm))

variable {l : Level} (hl : l ∈ h.levels)
include hl

theorem getElem?_depth : h.levels[l.depth]? = some l := by
  obtain ⟨i, hi⟩ := List.getElem?_of_mem hl
  rw [hlevelled.depth i l hi, hi]

/-- The members at the depth of a level are those that it is the level of. -/
theorem depth_eq_iff {m : Member} (hm : m ∈ h.members) : m.depth = l.depth ↔ m.level = l := by
  constructor
  · intro hdepth
    have hlevel := hlevelled.level m hm
    rw [hdepth, hlevelled.getElem?_depth hl] at hlevel
    exact (Option.some.inj hlevel).symm
  · intro hlevel
    rw [Member.depth, hlevel]

/-- The members that name the level are those at its depth just if no member deeper or higher has a
level of the same name. -/
theorem levelMembers_eq_iff : h.levelMembers l = h.members.filter (·.depth == l.depth) ↔
    ∀ m ∈ h.members, m.level.uniqueName = l.uniqueName → m.depth = l.depth := by
  constructor
  · intro heq m hm hname
    have hmem : m ∈ h.levelMembers l := List.mem_filter.2 ⟨hm, Level.beq_iff.2 hname⟩
    rw [heq] at hmem
    exact eq_of_beq (List.mem_filter.1 hmem).2
  · intro hnames
    refine List.filter_congr fun m hm => ?_
    rw [Bool.eq_iff_iff, Level.beq_iff, beq_iff_eq]
    refine ⟨hnames m hm, fun hdepth => ?_⟩
    rw [(hlevelled.depth_eq_iff hl hm).1 hdepth]

/-- Levels of different names have different unique names. -/
theorem depth_eq_of_uniqueName (hnames : (h.levels.map (·.name)).Nodup) {m : Member}
    (hm : m ∈ h.members) (hname : m.level.uniqueName = l.uniqueName) : m.depth = l.depth := by
  have hlevel := List.mem_of_getElem? (hlevelled.level m hm)
  rw [hlevelled.uniqueName _ hlevel, hlevelled.uniqueName l hl] at hname
  rw [hlevelled.depth_eq_iff hl hm]
  exact List.inj_on_of_nodup_map hnames hlevel hl (bracketed_below_inj hname)

end Hierarchy.Levelled

/-! ## Walks from the roots -/

namespace Tree

theorem descendantsAll_eq_flatMap (target : Nat) (flag : DescendantsFlag) (ts : List (Tree Member)) :
    descendantsAll target flag ts = ts.flatMap (·.descendants target flag) := by
  induction ts with
  | nil => rfl
  | cons t ts ih => rw [descendantsAll, List.flatMap_cons, ih]

/-- A tree of a forest is found by its top, if no other node is like it. -/
theorem EachIn.findIn?_top {α : Type} {P : List α → α → List α → Prop} {above : List α} {p : α → Bool}
    {ts : List (Tree α)} {t : Tree α} (h : EachIn P above ts) (ht : t ∈ ts)
    (hnodup : (preorderAll ts).Nodup) (hp : ∀ v ∈ preorderAll ts, p v = true ↔ v = t.value) :
    findIn? p ts = some t := by
  induction ts with
  | nil => cases ht
  | cons u ts ih =>
    rw [preorderAll] at hnodup hp
    rw [findIn?]
    rcases List.mem_cons.1 ht with rfl | ht
    · have htop : p t.value = true := (hp _ (List.mem_append_left _ t.value_mem_preorder)).2 rfl
      have hfound : t.find? p = some t := by
        obtain ⟨v, us⟩ := t
        exact if_pos htop
      rw [hfound, Option.some_or]
    · have hbehind : t.value ∈ preorderAll ts := map_value_subset ts (List.mem_map_of_mem ht)
      have hnone : u.find? p = none := by
        refine Option.eq_none_iff_forall_ne_some.2 fun w hw => ?_
        obtain ⟨hvalue, -⟩ := find?_spec p h.1 hw
        have hmem : w.value ∈ u.preorder := preorder_subset_of_find? p hw w.value_mem_preorder
        rw [(hp _ (List.mem_append_left _ hmem)).1 hvalue] at hmem
        exact List.disjoint_of_nodup_append hnodup hmem hbehind
      rw [hnone, Option.none_or]
      exact ih h.2 ht hnodup.of_append_right fun v hv => hp v (List.mem_append_right _ hv)

end Tree

/-- One after the other the walks from the roots of a hierarchy give what filtering all its members
gives. -/
theorem Cube.Built.descendants_roots {c : Cube} (hc : c.Built) {h : Hierarchy}
    (hh : h ∈ c.hierarchies) (target : Nat) (flag : DescendantsFlag) :
    h.roots.flatMap (fun r => c.descendants r target flag) =
      h.members.filter fun x => flag.includes x.depth target (h.children x).isEmpty := by
  have hstands := hc.stands hh
  have hnames := (hc.regular.hierarchy h hh).names
  have hsubtree : ∀ t ∈ h.forest, c.subtree t.value = t := by
    intro t ht
    have hroot : t.value ∈ h.members := Tree.map_value_subset h.forest (List.mem_map_of_mem ht)
    have hfound : h.subtree? t.value = some t := by
      refine hstands.findIn?_top ht hnames.of_map fun v hv => ?_
      rw [Member.beq_def, beq_iff_eq]
      refine ⟨List.inj_on_of_nodup_map hnames hv hroot, ?_⟩
      rintro rfl
      rfl
    exact hc.regular.subtree_eq hh hroot hfound
  calc h.roots.flatMap (fun r => c.descendants r target flag)
      = h.forest.flatMap (·.descendants target flag) := by
        rw [Hierarchy.roots, List.flatMap_map]
        exact List.flatMap_congr fun t ht => by rw [descendants, hsubtree t ht]
    _ = Tree.descendantsAll target flag h.forest := (Tree.descendantsAll_eq_flatMap ..).symm
    _ = _ := hstands.descendantsAll_eq

end Olap
