import Olap.Proofs.Catalog.Named

/-!
# Where members stand in their hierarchy

In a cube that has been built the ordinal of a member is its place in the pre-order of its hierarchy
(`Cube.Built.ordinals`). So a member is determined by its ordinal there (`Cube.Built.eq_of_ordinal`).
-/

set_option autoImplicit false

namespace Olap

namespace HierarchyDraft

mutual

/-- The nodes of a finished tree are numbered without gaps. -/
theorem ordinals_buildTree (level : Level) (below : List Level) (above : List MemberNode) (next : Nat) :
    ∀ t : Tree MemberDraft, let built := buildTree level below above next t
      built.1.preorder.map (·.ordinal) = List.range' next built.1.preorder.length ∧
        built.2 = next + built.1.preorder.length
  | .node d ts => by
    obtain ⟨hordinals, hnext⟩ := ordinals_buildForest below
      (⟨d.name, d.uniqueName, level, d.kind, next⟩ :: above) (next + 1) ts
    simp only [buildTree, Tree.preorder, List.map_cons, List.length_cons, List.range'_succ]
    refine ⟨congrArg (next :: ·) hordinals, ?_⟩
    omega

theorem ordinals_buildForest (levels : List Level) (above : List MemberNode) (next : Nat) :
    ∀ ts : List (Tree MemberDraft), let built := buildForest levels above next ts
      (Tree.preorderAll built.1).map (·.ordinal) =
          List.range' next (Tree.preorderAll built.1).length ∧
        built.2 = next + (Tree.preorderAll built.1).length
  | [] => ⟨rfl, rfl⟩
  | t :: ts => by
    rcases levels with _ | ⟨level, below⟩
    · exact ⟨rfl, rfl⟩
    · obtain ⟨htree, hnext⟩ := ordinals_buildTree level below above next t
      obtain ⟨hforest, hlast⟩ := ordinals_buildForest (level :: below) above
        (buildTree level below above next t).2 ts
      simp only [buildForest, Tree.preorderAll, List.map_append, List.length_append]
      rw [htree, hforest, hlast, hnext, List.range'_append_1]
      exact ⟨rfl, Nat.add_assoc ..⟩

end

theorem build_ordinals {d : HierarchyDraft} {dimension : String} {kind : DimensionKind}
    {ordinal : Nat} {h : Hierarchy} (hb : d.build dimension kind ordinal = .ok h) :
    h.members.map (·.ordinal) = List.range h.members.length := by
  unfold build at hb
  dsimp only at hb
  split at hb
  · cases hb
    rw [List.range_eq_range']
    exact (ordinals_buildForest (d.buildLevels ordinal) [] 0 d.forest).1
  · cases hb

end HierarchyDraft

theorem Hierarchy.ordinal_of_getElem? {h : Hierarchy}
    (hordinals : h.members.map (·.ordinal) = List.range h.members.length) {i : Nat} {m : Member}
    (hi : h.members[i]? = some m) : m.ordinal = i := by
  have hordinal : (h.members.map (·.ordinal))[i]? = some m.ordinal := by
    rw [List.getElem?_map, hi]
    rfl
  obtain ⟨hlt, -⟩ := List.getElem?_eq_some_iff.1 hi
  rw [hordinals, List.getElem?_range hlt] at hordinal
  exact (Option.some.inj hordinal).symm

namespace Cube.Built

variable {c : Cube} (hc : c.Built) {h : Hierarchy} (hh : h ∈ c.hierarchies)
include hc hh

/-- Every hierarchy of a cube that has been built comes from a draft. -/
theorem exists_draft : ∃ (d : HierarchyDraft) (dimension : String) (kind : DimensionKind)
    (ordinal : Nat), d.build dimension kind ordinal = .ok h := by
  obtain ⟨name, steps, hdrafts⟩ := hc.drafts
  obtain ⟨d, hmem, hh⟩ := List.mem_flatMap.1 hh
  obtain ⟨draft, -, first, hdraft⟩ := exists_mem_of_forall₂ hdrafts d hmem
  obtain ⟨-, -, hhierarchies⟩ := DimensionDraft.build_ok hdraft
  obtain ⟨k, -, ordinal, hk⟩ := exists_mem_of_forall₂ hhierarchies h hh
  exact ⟨k, _, _, ordinal, hk⟩

/-- The member at a place of its hierarchy has the place as its ordinal. -/
theorem ordinals : h.members.map (·.ordinal) = List.range h.members.length := by
  obtain ⟨d, dimension, kind, ordinal, hd⟩ := hc.exists_draft hh
  exact HierarchyDraft.build_ordinals hd

theorem getElem?_ordinal {m : Member} (hm : m ∈ h.members) : h.members[m.ordinal]? = some m := by
  obtain ⟨i, hi⟩ := List.getElem?_of_mem hm
  rw [h.ordinal_of_getElem? (hc.ordinals hh) hi]
  exact hi

theorem eq_of_ordinal {m n : Member} (hm : m ∈ h.members) (hn : n ∈ h.members)
    (heq : m.ordinal = n.ordinal) : m = n := by
  have hat := hc.getElem?_ordinal hh hm
  rw [heq, hc.getElem?_ordinal hh hn] at hat
  exact (Option.some.inj hat).symm

end Cube.Built

end Olap
