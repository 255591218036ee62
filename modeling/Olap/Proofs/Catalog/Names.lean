import Olap.Proofs.Catalog.Named

/-!
# How unique names are made

In a cube that has been built the unique name of a member is made from that of its parent and its own
name; the "all" member is passed over. Dimensions have distinct names, and the hierarchies of one
dimension distinct unique names (`Cube.Built.wellNamed`).
-/

set_option autoImplicit false

namespace Olap

/-! ## Finished hierarchies -/

/-- What the unique name of a member starts with, given its ancestors; `root` names the hierarchy. The
"all" member does not show in the names of those below it. -/
def nameAbove (root : String) : List MemberNode → String
  | [] => root
  | p :: _ => if p.kind = .all then root else p.uniqueName

namespace HierarchyDraft

mutual

theorem labelled_buildTree {root : String} (level : Level) (below : List Level)
    (above : List MemberNode) (next : Nat) : ∀ t : Tree MemberDraft,
      Labelled root (nameAbove root above) t →
      ∀ m ∈ (buildTree level below above next t).1.preorder,
        m.uniqueName = s!"{nameAbove root m.lineage}.[{m.name}]"
  | .node d ts, ht, m, hm => by
    obtain ⟨hname, hts⟩ := ht
    rw [buildTree, Tree.preorder] at hm
    rcases List.mem_cons.1 hm with rfl | hm
    · exact hname
    · exact labelled_buildForest below _ _ ts hts m hm

theorem labelled_buildForest {root : String} (levels : List Level) (above : List MemberNode)
    (next : Nat) : ∀ ts : List (Tree MemberDraft), AllLabelled root (nameAbove root above) ts →
      ∀ m ∈ Tree.preorderAll (buildForest levels above next ts).1,
        m.uniqueName = s!"{nameAbove root m.lineage}.[{m.name}]"
  | [], _, m, hm => by simp [buildForest, Tree.preorderAll] at hm
  | t :: ts, ht, m, hm => by
    rcases levels with _ | ⟨level, below⟩
    · simp [buildForest, Tree.preorderAll] at hm
    · rw [buildForest, Tree.preorderAll] at hm
      rcases List.mem_append.1 hm with hm | hm
      · exact labelled_buildTree level below above next t ht.1 m hm
      · exact labelled_buildForest (level :: below) above _ ts ht.2 m hm

end

theorem Proper.build {d : HierarchyDraft} {dimension name : String} (hd : d.Proper name)
    {kind : DimensionKind} {ordinal : Nat} {h : Hierarchy}
    (hb : d.build dimension kind ordinal = .ok h) :
    h.uniqueName = d.uniqueName ∧
      (h.uniqueName = s!"[{name}]" ∨ h.uniqueName = s!"[{name}].[{h.name}]") ∧
      ∀ m ∈ h.members, m.uniqueName = s!"{nameAbove h.uniqueName m.lineage}.[{m.name}]" := by
  unfold HierarchyDraft.build at hb
  dsimp only at hb
  split at hb
  · cases hb
    exact ⟨rfl, hd.uniqueName,
      labelled_buildForest (d.buildLevels ordinal) [] 0 d.forest hd.labelled⟩
  · cases hb

end HierarchyDraft

/-! ## Finished cubes -/

/-- How the names in a cube are made (module doc). -/
structure Cube.WellNamed (c : Cube) : Prop where
  dimensions : (c.dimensions.map (·.name)).Nodup
  hierarchies : ∀ d ∈ c.dimensions, (d.hierarchies.map (·.uniqueName)).Nodup
  hierarchy : ∀ d ∈ c.dimensions, ∀ h ∈ d.hierarchies,
    h.uniqueName = s!"[{d.name}]" ∨ h.uniqueName = s!"[{d.name}].[{h.name}]"
  member : ∀ h ∈ c.hierarchies, ∀ m ∈ h.members,
    m.uniqueName = s!"{nameAbove h.uniqueName m.lineage}.[{m.name}]"

theorem Cube.Built.wellNamed {c : Cube} (hc : c.Built) : c.WellNamed := by
  obtain ⟨name, steps, hdrafts⟩ := hc.drafts
  have hb := CubeBuilder.proper_foldl (CubeBuilder.proper_empty name) steps
  have hdimension : ∀ d ∈ c.dimensions, (d.hierarchies.map (·.uniqueName)).Nodup ∧
      ∀ h ∈ d.hierarchies,
        (h.uniqueName = s!"[{d.name}]" ∨ h.uniqueName = s!"[{d.name}].[{h.name}]") ∧
        ∀ m ∈ h.members, m.uniqueName = s!"{nameAbove h.uniqueName m.lineage}.[{m.name}]" := by
    intro d hd
    obtain ⟨draft, hdraft, first, hbuild⟩ := exists_mem_of_forall₂ hdrafts d hd
    obtain ⟨hname, -, hhierarchies⟩ := DimensionDraft.build_ok hbuild
    have hproper := hb.dimensions draft hdraft
    rw [hname]
    refine ⟨?_, fun h hh => ?_⟩
    · rw [map_eq_of_forall₂ hhierarchies fun k hk h ⟨ordinal, hbuild⟩ =>
        ((hproper.hierarchies k hk).build hbuild).1]
      exact hproper.distinct
    · obtain ⟨k, hk, ordinal, hbuild⟩ := exists_mem_of_forall₂ hhierarchies h hh
      exact ((hproper.hierarchies k hk).build hbuild).2
  refine ⟨?_, fun d hd => (hdimension d hd).1, fun d hd h hh => ((hdimension d hd).2 h hh).1,
    fun h hh => ?_⟩
  · rw [map_eq_of_forall₂ hdrafts fun draft _ d ⟨first, hbuild⟩ =>
      (DimensionDraft.build_ok hbuild).1]
    exact hb.distinct
  · obtain ⟨d, hd, hh⟩ := List.mem_flatMap.1 hh
    exact ((hdimension d hd).2 h hh).2

end Olap
