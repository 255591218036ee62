import Olap.Proofs.Catalog.Built
import Olap.Proofs.Catalog.Navigation
import Olap.Proofs.Outcomes

/-!
# Regular cubes

A cube that has been built is regular (`Cube.Built.regular`). In a regular cube a coordinate, which
holds a member of each hierarchy, is determined by the unique names of its members
(`Cube.Regular.coordinate_eq`), and stays one when members of the cube are put in place.
-/

set_option autoImplicit false

namespace Olap

namespace HierarchyDraft

/-! ## Finished trees -/

mutual

/-- The levels of a finished tree are those that it was given. -/
theorem level_mem_buildTree (level : Level) (below : List Level) (above : List MemberNode)
    (next : Nat) : ∀ t : Tree MemberDraft, ∀ m ∈ (buildTree level below above next t).1.preorder,
      m.level ∈ level :: below
  | .node d ts => by
    intro m hm
    rw [buildTree, Tree.preorder] at hm
    rcases List.mem_cons.1 hm with rfl | hm
    · exact List.mem_cons_self
    · exact List.mem_cons_of_mem _ (level_mem_buildForest below _ _ ts m hm)

theorem level_mem_buildForest (levels : List Level) (above : List MemberNode) (next : Nat) :
    ∀ ts : List (Tree MemberDraft),
      ∀ m ∈ Tree.preorderAll (buildForest levels above next ts).1, m.level ∈ levels
  | [] => by simp [buildForest, Tree.preorderAll]
  | t :: ts => by
    intro m hm
    rcases levels with _ | ⟨level, below⟩
    · simp [buildForest, Tree.preorderAll] at hm
    · rw [buildForest, Tree.preorderAll] at hm
      rcases List.mem_append.1 hm with hm | hm
      · exact level_mem_buildTree level below above next t m hm
      · exact level_mem_buildForest (level :: below) above _ ts m hm

end

mutual

/-- A finished tree has the names of its draft, as far as the levels reach. -/
theorem names_buildTree_sublist (level : Level) (below : List Level) (above : List MemberNode)
    (next : Nat) : ∀ t : Tree MemberDraft,
      ((buildTree level below above next t).1.preorder.map (·.uniqueName)).Sublist
        (t.preorder.map (·.uniqueName))
  | .node d ts => by
    rw [buildTree, Tree.preorder, Tree.preorder, List.map_cons, List.map_cons]
    exact (names_buildForest_sublist below _ _ ts).cons_cons _

theorem names_buildForest_sublist (levels : List Level) (above : List MemberNode) (next : Nat) :
    ∀ ts : List (Tree MemberDraft),
      ((Tree.preorderAll (buildForest levels above next ts).1).map (·.uniqueName)).Sublist
        ((Tree.preorderAll ts).map (·.uniqueName))
  | [] => by
    rw [buildForest]
    exact List.Sublist.refl _
  | t :: ts => by
    rcases levels with _ | ⟨level, below⟩
    · rw [buildForest]
      exact List.nil_sublist _
    · rw [buildForest, Tree.preorderAll, Tree.preorderAll, List.map_append, List.map_append]
      exact (names_buildTree_sublist level below above next t).append
        (names_buildForest_sublist (level :: below) above _ ts)

end

mutual

/-- The ancestors of a member of a finished tree are nodes of the tree or stand above it. -/
theorem ancestors_buildTree (level : Level) (below : List Level) (above : List MemberNode)
    (next : Nat) : ∀ t : Tree MemberDraft, ∀ m ∈ (buildTree level below above next t).1.preorder,
      ∀ a ∈ m.ancestors, a ∈ (buildTree level below above next t).1.preorder ∨
        a ∈ Member.ofLineage above
  | .node d ts => by
    intro m hm a ha
    rw [buildTree, Tree.preorder] at hm ⊢
    rcases List.mem_cons.1 hm with rfl | hm
    · exact .inr ha
    · rcases ancestors_buildForest below _ _ ts m hm a ha with h | h
      · exact .inl (List.mem_cons_of_mem _ h)
      · rcases List.mem_cons.1 h with rfl | h
        · exact .inl List.mem_cons_self
        · exact .inr h

theorem ancestors_buildForest (levels : List Level) (above : List MemberNode) (next : Nat) :
    ∀ ts : List (Tree MemberDraft),
      ∀ m ∈ Tree.preorderAll (buildForest levels above next ts).1, ∀ a ∈ m.ancestors,
        a ∈ Tree.preorderAll (buildForest levels above next ts).1 ∨ a ∈ Member.ofLineage above
  | [] => by simp [buildForest, Tree.preorderAll]
  | t :: ts => by
    intro m hm a ha
    rcases levels with _ | ⟨level, below⟩
    · simp [buildForest, Tree.preorderAll] at hm
    · rw [buildForest, Tree.preorderAll] at hm ⊢
      rcases List.mem_append.1 hm with hm | hm
      · rcases ancestors_buildTree level below above next t m hm a ha with h | h
        · exact .inl (List.mem_append_left _ h)
        · exact .inr h
      · rcases ancestors_buildForest (level :: below) above _ ts m hm a ha with h | h
        · exact .inl (List.mem_append_right _ h)
        · exact .inr h

end

end HierarchyDraft

/-! ## Finished hierarchies -/

/-- What holds of a hierarchy of a cube that has been built. -/
structure Hierarchy.Regular (h : Hierarchy) : Prop where
  ordinal : ∀ m ∈ h.members, m.hierarchyOrdinal = h.ordinal
  names : (h.members.map (·.uniqueName)).Nodup
  ancestors : ∀ m ∈ h.members, ∀ a ∈ m.ancestors, a ∈ h.members

theorem HierarchyDraft.build_regular {d : HierarchyDraft} (hd : d.NamesDistinct)
    {dimension : String} {kind : DimensionKind} {ordinal : Nat} {h : Hierarchy}
    (hb : d.build dimension kind ordinal = .ok h) : h.Regular ∧ h.ordinal = ordinal := by
  unfold build at hb
  dsimp only at hb
  split at hb
  · cases hb
    refine ⟨⟨fun m hm => ?_, ?_, fun m hm a ha => ?_⟩, rfl⟩
    · have hl := level_mem_buildForest (d.buildLevels ordinal) [] 0 d.forest m hm
      obtain ⟨i, hi, hl⟩ := List.mem_mapIdx.1 hl
      show m.level.hierarchyOrdinal = ordinal
      rw [← hl]
    · exact (names_buildForest_sublist (d.buildLevels ordinal) [] 0 d.forest).nodup hd
    · rcases ancestors_buildForest (d.buildLevels ordinal) [] 0 d.forest m hm a ha with h | h
      · exact h
      · cases h
  · cases hb

/-- What holds of a cube that has been built (module doc). -/
structure Cube.Regular (c : Cube) : Prop where
  ordinal : ∀ (i : Nat) (h : Hierarchy), c.hierarchies[i]? = some h → h.ordinal = i
  hierarchy : ∀ h ∈ c.hierarchies, h.Regular

/-- Hierarchies that are regular and numbered from `next` on. -/
def NumberedFrom (next : Nat) (hs : List Hierarchy) : Prop :=
  ∀ (i : Nat) (h : Hierarchy), hs[i]? = some h → h.Regular ∧ h.ordinal = next + i

theorem NumberedFrom.nil (next : Nat) : NumberedFrom next [] := by
  rintro i h ⟨⟩

theorem NumberedFrom.singleton {next : Nat} {h : Hierarchy} (hreg : h.Regular)
    (hord : h.ordinal = next) : NumberedFrom next [h] := by
  intro i k hi
  rcases i with _ | i
  · cases hi
    exact ⟨hreg, hord⟩
  · cases hi

theorem NumberedFrom.append {next : Nat} {hs ks : List Hierarchy} (hh : NumberedFrom next hs)
    (hk : NumberedFrom (next + hs.length) ks) : NumberedFrom next (hs ++ ks) := by
  intro i h hi
  rw [List.getElem?_append] at hi
  split at hi
  · exact hh i h hi
  · obtain ⟨hreg, hord⟩ := hk _ h hi
    exact ⟨hreg, by omega⟩

theorem DimensionDraft.buildHierarchies_numbered {dimension : String} {kind : DimensionKind}
    {next : Nat} {ds : List HierarchyDraft} (hds : ∀ d ∈ ds, d.NamesDistinct) {hs : List Hierarchy}
    (hb : buildHierarchies dimension kind next ds = .ok hs) :
    NumberedFrom next hs ∧ hs.length = ds.length := by
  induction ds generalizing next hs with
  | nil =>
    cases hb
    exact ⟨.nil next, rfl⟩
  | cons d ds ih =>
    obtain ⟨h, hk, hb⟩ := bind_eq_ok.1 hb
    obtain ⟨rest, hr, hb⟩ := bind_eq_ok.1 hb
    cases hb
    obtain ⟨hreg, hord⟩ := HierarchyDraft.build_regular (hds d List.mem_cons_self) hk
    obtain ⟨hnum, hlen⟩ := ih (fun e he => hds e (List.mem_cons_of_mem d he)) hr
    exact ⟨(NumberedFrom.singleton hreg hord).append hnum, by simp [hlen]⟩

theorem CubeBuilder.buildDimensions_numbered {next : Nat} {ds : List DimensionDraft}
    (hds : ∀ d ∈ ds, ∀ h ∈ d.hierarchies, h.NamesDistinct) {dims : List Dimension}
    (hb : buildDimensions next ds = .ok dims) :
    NumberedFrom next (dims.flatMap (·.hierarchies)) := by
  induction ds generalizing next dims with
  | nil =>
    cases hb
    exact .nil next
  | cons d ds ih =>
    obtain ⟨first, hk, hb⟩ := bind_eq_ok.1 hb
    obtain ⟨rest, hr, hb⟩ := bind_eq_ok.1 hb
    obtain ⟨hs, hhs, hk⟩ := bind_eq_ok.1 hk
    cases hb
    cases hk
    obtain ⟨hnum, hlen⟩ := DimensionDraft.buildHierarchies_numbered (hds d List.mem_cons_self) hhs
    refine NumberedFrom.append hnum ?_
    show NumberedFrom (next + hs.length) _
    rw [hlen]
    exact ih (fun e he => hds e (List.mem_cons_of_mem d he)) hr

/-! ## Finished cubes -/

/-- The cube comes out of a builder after some steps of assembly. -/
def Cube.Built (c : Cube) : Prop :=
  ∃ (name : String) (steps : List BuildStep),
    (steps.foldl CubeBuilder.take (.empty name)).build = .ok c

theorem Cube.Built.regular {c : Cube} (hc : c.Built) : c.Regular := by
  obtain ⟨name, steps, hb⟩ := hc
  have hdistinct := (CubeBuilder.proper_foldl (CubeBuilder.proper_empty name) steps).namesDistinct
  obtain ⟨dims, hdims, hb⟩ := bind_eq_ok.1 hb
  cases hb
  have hnum := CubeBuilder.buildDimensions_numbered
    (CubeBuilder.namesDistinct_iff.1 hdistinct) hdims
  refine ⟨fun i h hi => by have := (hnum i h hi).2; omega, fun h hh => ?_⟩
  obtain ⟨i, hi⟩ := List.getElem?_of_mem hh
  exact (hnum i h hi).1

/-! ## Coordinates -/

/-- A list of members that holds one of each hierarchy. -/
structure Cube.Coordinate (c : Cube) (κ : List Member) : Prop where
  length : κ.length = c.hierarchies.length
  member : ∀ (i : Nat) (h : Hierarchy), c.hierarchies[i]? = some h →
    ∀ m, κ[i]? = some m → m ∈ h.members

namespace Cube

variable {c : Cube} {κ μ : List Member}

theorem Coordinate.hierarchy_of_getElem? (hκ : c.Coordinate κ) {i : Nat} {m : Member}
    (hm : κ[i]? = some m) : ∃ h, c.hierarchies[i]? = some h ∧ m ∈ h.members := by
  obtain ⟨hi, -⟩ := List.getElem?_eq_some_iff.1 hm
  have hh := List.getElem?_eq_getElem (hκ.length ▸ hi : i < c.hierarchies.length)
  exact ⟨_, hh, hκ.member i _ hh m hm⟩

theorem coordinate_defaultMembers (c : Cube) : c.Coordinate c.defaultMembers := by
  refine ⟨List.length_map _, fun i h hi m hm => ?_⟩
  rw [defaultMembers, List.getElem?_map, hi] at hm
  cases hm
  exact h.defaultMember_mem_members

namespace Regular

theorem getElem?_hierarchyOrdinal (hc : c.Regular) {h : Hierarchy} (hh : h ∈ c.hierarchies)
    {m : Member} (hm : m ∈ h.members) : c.hierarchies[m.hierarchyOrdinal]? = some h := by
  obtain ⟨i, hi⟩ := List.getElem?_of_mem hh
  rw [(hc.hierarchy h hh).ordinal m hm, hc.ordinal i h hi]
  exact hi

theorem ordinal_of_mem (hc : c.Regular) {o : Nat} {h : Hierarchy}
    (ho : c.hierarchies[o]? = some h) {m : Member} (hm : m ∈ h.members) : m.hierarchyOrdinal = o := by
  rw [(hc.hierarchy h (List.mem_of_getElem? ho)).ordinal m hm, hc.ordinal o h ho]

theorem coordinate_set (hc : c.Regular) (hκ : c.Coordinate κ) {m : Member}
    (hm : ∃ h ∈ c.hierarchies, m ∈ h.members) : c.Coordinate (κ.set m.hierarchyOrdinal m) := by
  obtain ⟨h, hh, hm⟩ := hm
  refine ⟨by rw [List.length_set, hκ.length], fun i k hk n hn => ?_⟩
  have hat := hc.getElem?_hierarchyOrdinal hh hm
  rw [List.getElem?_set] at hn
  split at hn
  · rename_i heq
    subst heq
    rw [hk] at hat
    cases hat
    split at hn <;> cases hn
    exact hm
  · exact hκ.member i k hk n hn

theorem member_eq (hc : c.Regular) {h : Hierarchy} (hh : h ∈ c.hierarchies) {m n : Member}
    (hm : m ∈ h.members) (hn : n ∈ h.members) (heq : m.uniqueName = n.uniqueName) : m = n :=
  List.inj_on_of_nodup_map (hc.hierarchy h hh).names hm hn heq

/-- Two coordinates hold the same member wherever they hold the same name. -/
theorem getElem?_eq (hc : c.Regular) (hκ : c.Coordinate κ) (hμ : c.Coordinate μ) {i : Nat}
    (h : κ[i]?.map (·.uniqueName) = μ[i]?.map (·.uniqueName)) : κ[i]? = μ[i]? := by
  rcases hm : κ[i]? with _ | m
  · rw [hm] at h
    exact (Option.map_eq_none_iff.1 h.symm).symm
  · rcases hn : μ[i]? with _ | n
    · rw [hm, hn] at h
      cases h
    · rw [hm, hn] at h
      obtain ⟨k, hk, hmk⟩ := hκ.hierarchy_of_getElem? hm
      have hnk := hμ.member i k hk n hn
      rw [hc.member_eq (List.mem_of_getElem? hk) hmk hnk (Option.some.inj h)]

/-- A coordinate is determined by the unique names of its members. -/
theorem coordinate_eq (hc : c.Regular) (hκ : c.Coordinate κ) (hμ : c.Coordinate μ)
    (h : κ.map (·.uniqueName) = μ.map (·.uniqueName)) : κ = μ := by
  refine List.ext_getElem? fun i => hc.getElem?_eq hκ hμ ?_
  rw [← List.getElem?_map, ← List.getElem?_map, h]

end Regular

end Cube

/-! ## A cube of two measures -/

namespace Sample

def builder : CubeBuilder :=
  [BuildStep.measure "Amount", .measure "Cost"].foldl .take (.empty "Sales")

def cube : Cube :=
  match builder.build with
  | .ok c => c
  | .error _ => ⟨"", []⟩

theorem cube_built : cube.Built := by
  have hsome : builder.build.toOption.isSome = true := by decide
  obtain ⟨c, hc⟩ := exists_ok_of_isSome hsome
  have hcube : cube = c := by rw [cube, hc]
  rw [hcube]
  exact ⟨"Sales", [.measure "Amount", .measure "Cost"], hc⟩

/-- The members of the measures, a placeholder where there is none. -/
def measure (k : Nat) : Member :=
  (cube.hierarchies.flatMap Hierarchy.members)[k]?.getD
    ⟨⟨"", "", ⟨"", "", "", 0, 0, false⟩, .measure, 0⟩, []⟩

def amount : Member := measure 0

def cost : Member := measure 1

theorem measure_mem {k : Nat} (hk : k < 2) : ∃ h ∈ cube.hierarchies, measure k ∈ h.members := by
  have hcount : (cube.hierarchies.flatMap Hierarchy.members).length = 2 := by decide
  have hget : measure k ∈ cube.hierarchies.flatMap Hierarchy.members := by
    rw [measure, List.getElem?_eq_getElem (hcount ▸ hk)]
    exact List.getElem_mem _
  exact List.mem_flatMap.1 hget

end Sample

end Olap
