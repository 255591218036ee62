import Olap.Function.Navigation

/-!
# Walks stay in their tree

Whatever a walk through the members of a hierarchy selects is a node of the tree that it started
from, and a subtree that is found holds nodes of the forest that it was looked for in.
-/

set_option autoImplicit false

namespace Olap

namespace Tree

variable {α : Type}

/-! ## Subtrees -/

mutual

theorem preorder_subset_of_find? (p : α → Bool) :
    ∀ {u t : Tree α}, u.find? p = some t → t.preorder ⊆ u.preorder
  | node v ts, t, h => by
    rw [find?] at h
    split at h
    · cases h
      exact List.Subset.refl _
    · rw [preorder]
      exact List.subset_cons_of_subset v (preorder_subset_of_findIn? p h)

theorem preorder_subset_of_findIn? (p : α → Bool) :
    ∀ {us : List (Tree α)} {t : Tree α}, findIn? p us = some t → t.preorder ⊆ preorderAll us
  | [], t, h => by simp [findIn?] at h
  | u :: us, t, h => by
    rw [findIn?, Option.or_eq_some_iff] at h
    rw [preorderAll]
    rcases h with h | ⟨-, h⟩
    · exact List.subset_append_of_subset_left _ (preorder_subset_of_find? p h)
    · exact List.subset_append_of_subset_right _ (preorder_subset_of_findIn? p h)

end

theorem value_mem_preorder (t : Tree α) : t.value ∈ t.preorder := by
  cases t
  rw [preorder]
  exact List.mem_cons_self

/-- The tops of a forest stand in the pre-order as they stand side by side. -/
theorem map_value_sublist (ts : List (Tree α)) : (ts.map value).Sublist (preorderAll ts) := by
  induction ts with
  | nil => exact .slnil
  | cons t ts ih =>
    obtain ⟨v, us⟩ := t
    rw [List.map_cons, preorderAll, preorder, List.cons_append]
    exact (ih.trans (List.sublist_append_right _ _)).cons_cons v

theorem map_value_subset (ts : List (Tree α)) : ts.map value ⊆ preorderAll ts :=
  (map_value_sublist ts).subset

theorem preorderAll_children_subset (t : Tree α) : preorderAll t.children ⊆ t.preorder := by
  cases t with
  | node v ts =>
    rw [preorder]
    exact List.subset_cons_of_subset v (List.Subset.refl _)

/-! ## Selections -/

mutual

theorem descendants_subset (target : Nat) (flag : DescendantsFlag) :
    ∀ t : Tree Member, t.descendants target flag ⊆ t.preorder
  | node m ts => by
    have own : (if flag.includes m.depth target ts.isEmpty then [m] else []) ⊆
        (node m ts).preorder := by
      rw [preorder]
      split
      · exact List.cons_subset_cons m (List.nil_subset _)
      · exact List.nil_subset _
    rw [descendants]
    split
    · exact own
    · refine List.append_subset.2 ⟨own, ?_⟩
      rw [preorder]
      exact List.subset_cons_of_subset m (descendantsAll_subset target flag ts)

theorem descendantsAll_subset (target : Nat) (flag : DescendantsFlag) :
    ∀ ts : List (Tree Member), descendantsAll target flag ts ⊆ preorderAll ts
  | [] => List.Subset.refl _
  | t :: ts => by
    rw [descendantsAll, preorderAll]
    refine List.append_subset.2 ⟨?_, ?_⟩
    · exact List.subset_append_of_subset_left _ (descendants_subset target flag t)
    · exact List.subset_append_of_subset_right _ (descendantsAll_subset target flag ts)

end

mutual

theorem drillAll_subset (isTarget : Member → Bool) :
    ∀ t : Tree Member, t.drillAll isTarget ⊆ t.preorder
  | node m ts => by
    rw [drillAll, preorder]
    refine List.cons_subset_cons m ?_
    split
    · exact drillEach_subset isTarget ts
    · exact List.nil_subset _

theorem drillEach_subset (isTarget : Member → Bool) :
    ∀ ts : List (Tree Member), drillEach isTarget ts ⊆ preorderAll ts
  | [] => List.Subset.refl _
  | t :: ts => by
    rw [drillEach, preorderAll]
    refine List.append_subset.2 ⟨?_, ?_⟩
    · exact List.subset_append_of_subset_left _ (drillAll_subset isTarget t)
    · exact List.subset_append_of_subset_right _ (drillEach_subset isTarget ts)

end

theorem drill_subset (isTarget : Member → Bool) (t : Tree Member) :
    t.drill isTarget ⊆ t.preorder := by
  cases t with
  | node m ts =>
    rw [drill, preorder]
    refine List.cons_subset_cons m ?_
    split
    · exact map_value_subset ts
    · exact List.nil_subset _

end Tree

/-! ## Cubes -/

namespace Hierarchy

variable (h : Hierarchy) (m : Member)

theorem preorder_subset_members {t : Tree Member} (ht : h.subtree? m = some t) :
    t.preorder ⊆ h.members :=
  Tree.preorder_subset_of_findIn? _ ht

theorem children_subset_members : h.children m ⊆ h.members := by
  rw [children]
  rcases ht : h.subtree? m with _ | t
  · exact List.nil_subset _
  · have hchildren := List.Subset.trans (Tree.preorderAll_children_subset t)
      (h.preorder_subset_members m ht)
    exact List.Subset.trans (Tree.map_value_subset _) hchildren

theorem levelMembers_subset_members (l : Level) : h.levelMembers l ⊆ h.members :=
  List.filter_sublist.subset

theorem defaultMember_mem_members : h.defaultMember ∈ h.members := by
  refine Tree.map_value_subset h.forest (List.mem_map_of_mem (List.head_mem _))

end Hierarchy

theorem Dimension.mem_of_singleHierarchy? {d : Dimension} {h : Hierarchy}
    (hh : d.singleHierarchy? = some h) : h ∈ d.hierarchies := by
  unfold singleHierarchy? at hh
  split at hh
  · cases hh
    rw [‹d.hierarchies = _›]
    exact List.mem_cons_self
  · cases hh

namespace Cube

variable {c : Cube}

theorem mem_hierarchies_of_hierarchyOf? {m : Member} {h : Hierarchy}
    (hm : c.hierarchyOf? m = some h) : h ∈ c.hierarchies :=
  List.mem_of_getElem? hm

theorem mem_hierarchies_of_hierarchy {name : String} {h : Hierarchy}
    (hn : c.hierarchy name = .ok h) : h ∈ c.hierarchies := by
  unfold hierarchy at hn
  split at hn
  · cases hn
    exact List.mem_of_find?_eq_some (by assumption)
  · cases hn

theorem mem_dimensions_of_dimension {name : String} {d : Dimension}
    (hn : c.dimension name = .ok d) : d ∈ c.dimensions := by
  unfold dimension at hn
  split at hn
  · cases hn
    exact List.mem_of_find?_eq_some (by assumption)
  · cases hn

/-- The nodes of a member's subtree are the member itself or members of its hierarchy. -/
theorem mem_preorder_subtree {m n : Member} (hn : n ∈ (c.subtree m).preorder) :
    n = m ∨ ∃ h ∈ c.hierarchies, n ∈ h.members := by
  rw [subtree] at hn
  rcases hh : c.hierarchyOf? m with _ | h
  · rw [hh] at hn
    exact .inl (by simpa [Tree.leaf, Tree.preorder, Tree.preorderAll] using hn)
  · rw [hh, Option.bind_some] at hn
    rcases ht : h.subtree? m with _ | t
    · rw [ht] at hn
      exact .inl (by simpa [Tree.leaf, Tree.preorder, Tree.preorderAll] using hn)
    · rw [ht] at hn
      exact .inr ⟨h, mem_hierarchies_of_hierarchyOf? hh, h.preorder_subset_members m ht hn⟩

end Cube

end Olap
