import Olap.Proofs.Catalog.Regular
import Olap.Typing.Types

/-!
# Names that tell where members belong

In a cube that has been built every member carries the name of its hierarchy, and every hierarchy that
of its dimension. If the name of a dimension can also be read off the names of its hierarchies, the
cube is named (`Cube.Named`): then all that scopes are made from says the same about a member.
Navigation stays within one hierarchy.
-/

set_option autoImplicit false

namespace Olap

/-! ## Drafts of what has been built -/

theorem HierarchyDraft.build_names {d : HierarchyDraft} {dimension : String} {kind : DimensionKind}
    {ordinal : Nat} {h : Hierarchy} (hb : d.build dimension kind ordinal = .ok h) :
    h.dimension = dimension ∧ ∀ m ∈ h.members, m.hierarchy = h.uniqueName := by
  unfold build at hb
  dsimp only at hb
  split at hb
  · cases hb
    refine ⟨rfl, fun m hm => ?_⟩
    have hl := level_mem_buildForest (d.buildLevels ordinal) [] 0 d.forest m hm
    obtain ⟨i, hi, hl⟩ := List.mem_mapIdx.1 hl
    show m.level.hierarchy = d.uniqueName
    rw [← hl]
  · cases hb

/-- Hierarchies are finished one by one. -/
theorem DimensionDraft.buildHierarchies_forall₂ {dimension : String} {kind : DimensionKind}
    {next : Nat} {ds : List HierarchyDraft} {hs : List Hierarchy}
    (hb : buildHierarchies dimension kind next ds = .ok hs) :
    List.Forall₂ (fun d h => ∃ ordinal, HierarchyDraft.build d dimension kind ordinal = .ok h)
      ds hs := by
  induction ds generalizing next hs with
  | nil =>
    cases hb
    exact .nil
  | cons d ds ih =>
    obtain ⟨h, hk, hb⟩ := bind_eq_ok.1 hb
    obtain ⟨rest, hr, hb⟩ := bind_eq_ok.1 hb
    cases hb
    exact .cons ⟨next, hk⟩ (ih hr)

/-- A dimension keeps its name and finishes its hierarchies. -/
theorem DimensionDraft.build_ok {draft : DimensionDraft} {first : Nat} {d : Dimension}
    (hb : draft.build first = .ok d) : d.name = draft.name ∧ d.uniqueName = draft.uniqueName ∧
      List.Forall₂ (fun k h =>
          ∃ ordinal, HierarchyDraft.build k draft.uniqueName draft.kind ordinal = .ok h)
        draft.hierarchies d.hierarchies := by
  obtain ⟨hs, hhs, hb⟩ := bind_eq_ok.1 hb
  cases hb
  exact ⟨rfl, rfl, buildHierarchies_forall₂ hhs⟩

/-- Dimensions are finished one by one. -/
theorem CubeBuilder.buildDimensions_forall₂ {next : Nat} {ds : List DimensionDraft}
    {dims : List Dimension} (hb : buildDimensions next ds = .ok dims) :
    List.Forall₂ (fun draft d => ∃ first, DimensionDraft.build draft first = .ok d) ds dims := by
  induction ds generalizing next dims with
  | nil =>
    cases hb
    exact .nil
  | cons d ds ih =>
    obtain ⟨first, hk, hb⟩ := bind_eq_ok.1 hb
    obtain ⟨rest, hr, hb⟩ := bind_eq_ok.1 hb
    cases hb
    exact .cons ⟨next, hk⟩ (ih hr)

/-- The dimensions of a finished cube are those of its builder. -/
theorem CubeBuilder.build_forall₂ {b : CubeBuilder} {c : Cube} (hb : b.build = .ok c) :
    List.Forall₂ (fun draft d => ∃ first, DimensionDraft.build draft first = .ok d)
      b.dimensions c.dimensions := by
  obtain ⟨dims, hdims, hb⟩ := bind_eq_ok.1 hb
  cases hb
  exact CubeBuilder.buildDimensions_forall₂ hdims

theorem Cube.Built.drafts {c : Cube} (hc : c.Built) : ∃ (name : String) (steps : List BuildStep),
    List.Forall₂ (fun draft d => ∃ first, DimensionDraft.build draft first = .ok d)
      (steps.foldl CubeBuilder.take (.empty name)).dimensions c.dimensions := by
  obtain ⟨name, steps, hb⟩ := hc
  exact ⟨name, steps, CubeBuilder.build_forall₂ hb⟩

theorem DimensionDraft.build_names {draft : DimensionDraft} {first : Nat} {d : Dimension}
    (hb : draft.build first = .ok d) : ∀ h ∈ d.hierarchies, h.dimension = d.uniqueName ∧
      ∀ m ∈ h.members, m.hierarchy = h.uniqueName := by
  obtain ⟨-, hname, hhierarchies⟩ := build_ok hb
  intro h hh
  obtain ⟨k, -, ordinal, hk⟩ := exists_mem_of_forall₂ hhierarchies h hh
  rw [hname]
  exact HierarchyDraft.build_names hk

/-! ## Named cubes -/

/-- The name of the dimension of a hierarchy, as read off the unique name of the hierarchy. -/
def Scope.dimensionName (hierarchy : String) : String := String.ofList (firstPart hierarchy.toList)

/-- The name of every hierarchy starts with that of its dimension, which has no dot between
brackets. -/
def Cube.DimensionsReadable (c : Cube) : Prop :=
  ∀ h ∈ c.hierarchies, Scope.dimensionName h.uniqueName = h.dimension

/-- What the names in a cube say is right (module doc). -/
structure Cube.Named (c : Cube) : Prop extends c.Regular where
  hierarchy_name : ∀ h ∈ c.hierarchies, ∀ m ∈ h.members, m.hierarchy = h.uniqueName
  dimension_name : ∀ d ∈ c.dimensions, ∀ h ∈ d.hierarchies, h.dimension = d.uniqueName
  readable : c.DimensionsReadable

theorem Cube.Built.named {c : Cube} (hc : c.Built) (hread : c.DimensionsReadable) : c.Named := by
  obtain ⟨name, steps, hdrafts⟩ := hc.drafts
  have hnames : ∀ d ∈ c.dimensions, ∀ h ∈ d.hierarchies, h.dimension = d.uniqueName ∧
      ∀ m ∈ h.members, m.hierarchy = h.uniqueName := by
    intro d hmem
    obtain ⟨draft, -, first, hdraft⟩ := exists_mem_of_forall₂ hdrafts d hmem
    exact DimensionDraft.build_names hdraft
  refine ⟨hc.regular, fun h hh => ?_, fun d hmem h hh => (hnames d hmem h hh).1, hread⟩
  obtain ⟨d, hmem, hh⟩ := List.mem_flatMap.1 hh
  exact (hnames d hmem h hh).2

namespace Cube.Regular

variable {c : Cube} (hc : c.Regular) {h : Hierarchy} (hh : h ∈ c.hierarchies) {m n : Member}
  (hm : m ∈ h.members)
include hc hh hm

/-! ## Navigation within a hierarchy -/

theorem hierarchyOf?_eq : c.hierarchyOf? m = some h := hc.getElem?_hierarchyOrdinal hh hm

theorem subtree_eq {t : Tree Member} (ht : h.subtree? m = some t) : c.subtree m = t := by
  rw [subtree, hc.hierarchyOf?_eq hh hm, Option.bind_some, ht, Option.getD_some]

theorem mem_of_children (hn : n ∈ c.children m) : n ∈ h.members := by
  rw [children, hc.hierarchyOf?_eq hh hm] at hn
  exact h.children_subset_members m hn

theorem mem_of_parent? {p : Member} (hp : m.parent? = some p) : p ∈ h.members := by
  refine (hc.hierarchy h hh).ancestors m hm p ?_
  unfold Member.parent? at hp
  split at hp
  · cases hp
  · rename_i hlineage
    cases hp
    rw [Member.ancestors, hlineage, Member.ofLineage]
    exact List.mem_cons_self

theorem mem_of_subtree (hn : n ∈ (c.subtree m).preorder) : n ∈ h.members := by
  rw [subtree, hc.hierarchyOf?_eq hh hm, Option.bind_some] at hn
  rcases ht : h.subtree? m with _ | t
  · rw [ht] at hn
    have hself : n = m := by simpa [Tree.leaf, Tree.preorder, Tree.preorderAll] using hn
    exact hself ▸ hm
  · rw [ht] at hn
    exact h.preorder_subset_members m ht hn

theorem mem_of_descendants {target : Nat} {flag : DescendantsFlag}
    (hn : n ∈ c.descendants m target flag) : n ∈ h.members :=
  hc.mem_of_subtree hh hm (Tree.descendants_subset target flag _ hn)

theorem mem_of_drillDown {targets : List Member} {recursive : Bool}
    (hn : n ∈ c.drillDown targets recursive m) : n ∈ h.members := by
  refine hc.mem_of_subtree hh hm ?_
  unfold Cube.drillDown at hn
  split at hn
  · exact Tree.drillAll_subset _ _ hn
  · exact Tree.drill_subset _ _ hn

end Cube.Regular

end Olap
