import Olap.Proofs.Catalog.Preorder

/-!
# Descendants

The walk for the descendants of a member leaves out what is below the target depth if nothing there can
be wanted. It loses nothing: depths grow from each member to those below it, so the walk gives what
filtering the whole subtree gives (`Tree.Each.descendants_eq`). In a cube that has been built these are,
in pre-order and once each, the members at or below the given one that the flag selects
(`Cube.Built.descendants_selected`).
-/

set_option autoImplicit false

namespace Olap

/-! ## Flags -/

namespace DescendantsFlag

/-- What a flag selects, of members at a depth: those at the target depth, those beyond it, those
before it, or unions of these; or all members; or those without children that are not beyond it. -/
def Selects (flag : DescendantsFlag) (depth target : Nat) (childless : Prop) : Prop :=
  match flag with
  | self => depth = target
  | after => target < depth
  | before => depth < target
  | beforeAndAfter => depth < target ∨ target < depth
  | selfAndAfter => depth = target ∨ target < depth
  | selfAndBefore => depth = target ∨ depth < target
  | selfBeforeAfter => True
  | leaves => childless ∧ depth ≤ target

variable {flag : DescendantsFlag} {depth target : Nat} {isLeaf : Bool}

theorem includes_iff :
    flag.includes depth target isLeaf = true ↔ flag.Selects depth target (isLeaf = true) := by
  cases flag <;> simp [includes, Selects] <;> omega

/-- Beyond the target depth a flag that does not go there selects nothing. -/
theorem includes_below (hflag : flag.goesBelow = false) (hlt : target < depth) :
    flag.includes depth target isLeaf = false := by
  cases flag <;> simp [includes, goesBelow] at hflag ⊢ <;> omega

end DescendantsFlag

/-! ## The walk -/

namespace Tree

/-- The member is as deep as there are members above it, and is childless if there are none below. -/
def Stands (childless : Member → Bool) (above : List Member) (m : Member) (below : List Member) :
    Prop :=
  m.depth = above.length ∧ childless m = below.isEmpty

variable {childless : Member → Bool} {target : Nat} {flag : DescendantsFlag}

mutual

theorem Each.length_le_depth : ∀ {above : List Member} {t : Tree Member},
    t.Each (Stands childless) above → ∀ x ∈ t.preorder, above.length ≤ x.depth
  | above, node m ts, h => by
    intro x hx
    rw [preorder] at hx
    rcases List.mem_cons.1 hx with rfl | hx
    · exact Nat.le_of_eq h.1.1.symm
    · have := h.2.length_le_depth x hx
      rw [List.length_cons] at this
      omega

theorem EachIn.length_le_depth : ∀ {above : List Member} {ts : List (Tree Member)},
    EachIn (Stands childless) above ts → ∀ x ∈ preorderAll ts, above.length ≤ x.depth
  | _, [], _ => List.forall_mem_nil _
  | _, t :: ts, h => by
    rw [preorderAll]
    exact List.forall_mem_append.2 ⟨h.1.length_le_depth, h.2.length_le_depth⟩

end

mutual

/-- The walk through a tree selects what filtering all its members selects. -/
theorem Each.descendants_eq : ∀ {above : List Member} {t : Tree Member},
    t.Each (Stands childless) above →
      t.descendants target flag = t.preorder.filter fun x => flag.includes x.depth target (childless x)
  | above, node m ts, h => by
    have hleaf : childless m = ts.isEmpty := h.1.2.trans List.isEmpty_map
    rw [descendants, preorder, List.filter_cons, hleaf]
    by_cases hpruned : (decide (target ≤ m.depth) && !flag.goesBelow) = true
    · -- all that is left out lies beyond the target depth
      simp only [Bool.and_eq_true, decide_eq_true_eq, Bool.not_eq_true'] at hpruned
      have hnone : (preorderAll ts).filter (fun x => flag.includes x.depth target (childless x)) = [] := by
        refine List.filter_eq_nil_iff.2 fun x hx => ?_
        have hdeep := h.2.length_le_depth x hx
        rw [List.length_cons, ← h.1.1] at hdeep
        rw [DescendantsFlag.includes_below hpruned.2 (by omega)]
        exact Bool.false_ne_true
      rw [if_pos (by simp [hpruned]), hnone]
    · rw [if_neg hpruned, h.2.descendantsAll_eq]
      split <;> rfl

theorem EachIn.descendantsAll_eq : ∀ {above : List Member} {ts : List (Tree Member)},
    EachIn (Stands childless) above ts →
      descendantsAll target flag ts =
        (preorderAll ts).filter fun x => flag.includes x.depth target (childless x)
  | _, [], _ => rfl
  | _, t :: ts, h => by
    rw [descendantsAll, preorderAll, List.filter_append, h.1.descendants_eq, h.2.descendantsAll_eq]

end

end Tree

/-! ## Built cubes -/

namespace Cube.Built

variable {c : Cube} (hc : c.Built) {h : Hierarchy} (hh : h ∈ c.hierarchies)
include hc hh

/-- In a cube that has been built every member stands where its depth and its children say. -/
theorem stands : Tree.EachIn (Tree.Stands fun x => (h.children x).isEmpty) [] h.forest := by
  obtain ⟨log, hnodes⟩ := hc.exists_placed hh
  have hregular := hc.regular.hierarchy h hh
  refine hnodes.imp fun above x hx below ⟨_, hdepth, _, hbelow⟩ => ⟨hdepth, ?_⟩
  have hlengths := congrArg List.length (hbelow.trans (Hierarchy.labels_children hnodes hregular hx).symm)
  rw [List.length_map, List.length_map] at hlengths
  rw [Bool.eq_iff_iff, List.isEmpty_iff_length_eq_zero, List.isEmpty_iff_length_eq_zero, hlengths]

variable {m : Member} (hm : m ∈ h.members)
include hm

/-- The subtree of a member is one block of the members, which holds what is at or below it. -/
theorem exists_subtree_block : ∃ before after, h.members = before ++ (c.subtree m).preorder ++ after ∧
    (∀ x ∈ h.members, x ∈ (c.subtree m).preorder ↔ x = m ∨ m ∈ x.ancestors) ∧
    ∃ above, (c.subtree m).Each (Tree.Stands fun x => (h.children x).isEmpty) above := by
  have hstands := hc.stands hh
  obtain ⟨log, hnodes⟩ := hc.exists_placed hh
  have hregular := hc.regular.hierarchy h hh
  obtain ⟨t, before, after, ht, htop, hsplit, -⟩ := Hierarchy.exists_block hnodes hregular hm
  have hsubtree : c.subtree m = t := hc.regular.subtree_eq hh hm ht
  obtain ⟨-, hsubstands, -⟩ := Tree.findIn?_spec (· == m) hstands ht
  rw [hsubtree]
  exact ⟨before, after, hsplit, fun x hx => Hierarchy.mem_block_iff hnodes hregular hx ht htop, hsubstands⟩

/-- The descendants of a member are, in pre-order and without repetition, the members at or below it
that the flag selects. -/
theorem descendants_selected (target : Nat) (flag : DescendantsFlag) :
    (c.descendants m target flag).Sublist h.members ∧ (c.descendants m target flag).Nodup ∧
      ∀ x, x ∈ c.descendants m target flag ↔ x ∈ h.members ∧ (x = m ∨ m ∈ x.ancestors) ∧
        flag.Selects x.depth target (h.children x = []) := by
  obtain ⟨before, after, hsplit, hblock, above, hstands⟩ := hc.exists_subtree_block hh hm
  have hwalk : c.descendants m target flag = (c.subtree m).preorder.filter fun x =>
      flag.includes x.depth target (h.children x).isEmpty := hstands.descendants_eq
  have hsublist : (c.descendants m target flag).Sublist h.members := by
    rw [hwalk, hsplit, List.append_assoc]
    refine List.filter_sublist.trans ?_
    exact (List.sublist_append_left _ after).trans (List.sublist_append_right before _)
  have hnames := (hc.regular.hierarchy h hh).names
  refine ⟨hsublist, hsublist.nodup hnames.of_map, fun x => ?_⟩
  rw [hwalk, List.mem_filter, DescendantsFlag.includes_iff, List.isEmpty_iff]
  constructor
  · rintro ⟨hx, hselected⟩
    have hmem : x ∈ h.members := by
      rw [hsplit, List.append_assoc]
      exact List.mem_append_right _ (List.mem_append_left _ hx)
    exact ⟨hmem, (hblock x hmem).1 hx, hselected⟩
  · rintro ⟨hmem, hbelow, hselected⟩
    exact ⟨(hblock x hmem).2 hbelow, hselected⟩

end Cube.Built

end Olap
