import Olap.Proofs.Catalog.Descendants

/-!
# Opening members

A member that is drilled comes with its children if it is a target. Where this goes on with the children,
a member is seen below the one that was drilled just if every member on the way down to it is a target
(`Cube.Built.drillAll_eq`), and all of the subtree is seen if every member with children is one
(`Cube.Built.drillDown_all`).
-/

set_option autoImplicit false

namespace Olap

/-! ## Ways down -/

namespace Member

/-- The members on the way from `m` down to the parent of `x`, the lowest first: of what stands above
`x`, what is `m` or stands below it. -/
def wayFrom (m x : Member) : List Member := x.ancestors.filter (·.isWithin m)

variable {m x a : Member}

theorem length_ancestors_lt (h : a ∈ m.ancestors) : a.ancestors.length < m.ancestors.length := by
  rw [length_ancestors, length_ancestors]
  exact length_lineage_lt h

/-- What stands above a member is neither the member nor below it. -/
theorem not_below_of_mem_ancestors (h : a ∈ m.ancestors) : ¬ (a = m ∨ m ∈ a.ancestors) := by
  have hlength := length_ancestors_lt h
  rintro (rfl | hbelow)
  · exact Nat.lt_irrefl _ hlength
  · exact Nat.lt_asymm hlength (length_ancestors_lt hbelow)

end Member

/-! ## What is to be seen -/

/-- The member is among the targets. Members are told by their unique names. -/
def Member.isAmong (targets : List Member) (m : Member) : Bool := targets.any (· == m)

/-- What is to be seen when a member of the hierarchy is drilled: the member, and its children if it is a
target; where this goes on with what is found, everything within the member that has only targets on
the way down to it. -/
def Hierarchy.drilled (h : Hierarchy) (targets : List Member) (recursive : Bool) (m : Member) :
    List Member :=
  if recursive then
    h.members.filter fun x => x.isWithin m && (m.wayFrom x).all (Member.isAmong targets)
  else m :: if m.isAmong targets then h.children m else []

/-! ## The walk -/

namespace Tree

variable {isTarget : Member → Bool}

/-- Everything on the way from the trees below `above` down to a member is a target. -/
def Reached (isTarget : Member → Bool) (above : List Member) (x : Member) : Bool :=
  (x.ancestors.take (x.ancestors.length - above.length)).all isTarget

theorem reached_append {above path : List Member} {x : Member} (h : x.ancestors = path ++ above) :
    Reached isTarget above x = path.all isTarget := by
  rw [Reached, h, List.length_append, Nat.add_sub_cancel, List.take_left]

/-- Below one member more the way is longer by this member. -/
theorem reached_cons {above path : List Member} {m x : Member}
    (h : x.ancestors = path ++ m :: above) :
    Reached isTarget above x = (Reached isTarget (m :: above) x && isTarget m) := by
  have hlonger : x.ancestors = (path ++ [m]) ++ above := by rw [h, List.append_assoc]; rfl
  rw [reached_append h, reached_append hlonger, List.all_append, List.all_cons, List.all_nil,
    Bool.and_true]

mutual

/-- Drilling a tree shows those of its members that are reached over targets. -/
theorem Each.drillAll_eq : ∀ {above : List Member} {t : Tree Member},
    t.Each (Traces Member.ancestors) above →
      t.drillAll isTarget = t.preorder.filter (Reached isTarget above)
  | above, node m ts, h => by
    have htop : Reached isTarget above m = true := by
      have hnone : m.ancestors = [] ++ above := h.1
      rw [reached_append hnone]
      rfl
    have hbelow : ∀ x ∈ preorderAll ts,
        Reached isTarget above x = (Reached isTarget (m :: above) x && isTarget m) := by
      intro x hx
      obtain ⟨path, hpath, -⟩ := h.2.lineage_eq x hx
      exact reached_cons hpath
    rw [drillAll, preorder, List.filter_cons_of_pos htop, List.filter_congr hbelow]
    cases hm : isTarget m with
    | false => simp
    | true =>
      rw [if_pos rfl, h.2.drillEach_eq]
      simp only [Bool.and_true]

theorem EachIn.drillEach_eq : ∀ {above : List Member} {ts : List (Tree Member)},
    EachIn (Traces Member.ancestors) above ts →
      drillEach isTarget ts = (preorderAll ts).filter (Reached isTarget above)
  | _, [], _ => rfl
  | _, t :: ts, h => by
    rw [drillEach, preorderAll, List.filter_append, h.1.drillAll_eq, h.2.drillEach_eq]

end

mutual

/-- If every member with children is a target, drilling shows the whole tree. -/
theorem Each.drillAll_all {childless : Member → Bool} : ∀ {above : List Member} {t : Tree Member},
    t.Each (Stands childless) above →
      (∀ x ∈ t.preorder, childless x = false → isTarget x = true) →
        t.drillAll isTarget = t.preorder
  | _, node m ts, h, htargets => by
    rw [preorder] at htargets
    obtain ⟨hm, hts⟩ := List.forall_mem_cons.1 htargets
    rw [drillAll, preorder]
    cases ts with
    | nil => rw [drillEach, preorderAll, ite_self]
    | cons t ts =>
      have hchildless : childless m = false := h.1.2
      rw [if_pos (hm hchildless), h.2.drillEach_all hts]

theorem EachIn.drillEach_all {childless : Member → Bool} :
    ∀ {above : List Member} {ts : List (Tree Member)}, EachIn (Stands childless) above ts →
      (∀ x ∈ preorderAll ts, childless x = false → isTarget x = true) →
        drillEach isTarget ts = preorderAll ts
  | _, [], _, _ => rfl
  | _, t :: ts, h, htargets => by
    rw [preorderAll] at htargets ⊢
    obtain ⟨ht, hts⟩ := List.forall_mem_append.1 htargets
    rw [drillEach, h.1.drillAll_all ht, h.2.drillEach_all hts]

end

end Tree

/-! ## Built cubes -/

namespace Cube.Built

variable {c : Cube} (hc : c.Built) {h : Hierarchy} (hh : h ∈ c.hierarchies)
include hc hh

/-- A member of the hierarchy lies within another one if it is this or below it. -/
theorem isWithin_iff {x m : Member} (hx : x ∈ h.members) (hm : m ∈ h.members) :
    x.isWithin m = true ↔ x = m ∨ m ∈ x.ancestors := by
  obtain ⟨log, hnodes⟩ := hc.exists_placed hh
  exact Hierarchy.isWithin_iff hnodes (hc.regular.hierarchy h hh) hx hm

variable {m : Member} (hm : m ∈ h.members)
include hm

/-- The subtree of a member has the member at its top, and all in it know what stands above them. -/
theorem subtree_traced : (c.subtree m).value = m ∧
    (c.subtree m).Each (Tree.Traces Member.ancestors) m.ancestors ∧
    h.children m = (c.subtree m).children.map Tree.value := by
  obtain ⟨log, hnodes⟩ := hc.exists_placed hh
  obtain ⟨t, before, after, ht, htop, -, heach⟩ :=
    Hierarchy.exists_block hnodes (hc.regular.hierarchy h hh) hm
  have hsubtree : c.subtree m = t := hc.regular.subtree_eq hh hm ht
  rw [hsubtree, Hierarchy.children, ht]
  exact ⟨htop, heach.imp fun _ _ _ _ hplaced => hplaced.1, rfl⟩

/-- The members within a member are its subtree in pre-order. -/
theorem filter_isWithin : h.members.filter (·.isWithin m) = (c.subtree m).preorder := by
  obtain ⟨before, after, hsplit, hblock, -⟩ := hc.exists_subtree_block hh hm
  have hwithin : ∀ x ∈ h.members, x.isWithin m = true ↔ x ∈ (c.subtree m).preorder := fun x hx =>
    (hc.isWithin_iff hh hx hm).trans (hblock x hx).symm
  have hnodup : h.members.Nodup := (hc.regular.hierarchy h hh).names.of_map
  rw [hsplit] at hwithin hnodup ⊢
  have hbefore := List.disjoint_of_nodup_append hnodup.of_append_left
  have hafter := List.disjoint_of_nodup_append hnodup
  have hnone : before.filter (·.isWithin m) = [] := List.filter_eq_nil_iff.2 fun x hx hin =>
    hbefore hx ((hwithin x (by simp [hx])).1 hin)
  have hnone' : after.filter (·.isWithin m) = [] := List.filter_eq_nil_iff.2 fun x hx hin =>
    hafter (List.mem_append_right _ ((hwithin x (by simp [hx])).1 hin)) hx
  have hall : (c.subtree m).preorder.filter (·.isWithin m) = (c.subtree m).preorder :=
    List.filter_eq_self.2 fun x hx => (hwithin x (by simp [hx])).2 hx
  rw [List.filter_append, List.filter_append, hnone, hnone', hall, List.nil_append, List.append_nil]

/-- What stands above a member of the subtree is the way down to it from the top, and then what stands
above the top. -/
theorem ancestors_eq {x : Member} (hx : x ∈ (c.subtree m).preorder) :
    x.ancestors = m.wayFrom x ++ m.ancestors := by
  obtain ⟨-, htraced, -⟩ := hc.subtree_traced hh hm
  obtain ⟨path, hpath, hsub⟩ := htraced.lineage_eq x hx
  have hinside : path.filter (·.isWithin m) = path := by
    refine List.filter_eq_self.2 fun a ha => ?_
    have hmem := hsub ha
    rw [← hc.filter_isWithin hh hm] at hmem
    exact (List.mem_filter.1 hmem).2
  have houtside : m.ancestors.filter (·.isWithin m) = [] := by
    refine List.filter_eq_nil_iff.2 fun a ha hin => ?_
    have hmem := (hc.regular.hierarchy h hh).ancestors m hm a ha
    exact Member.not_below_of_mem_ancestors ha ((hc.isWithin_iff hh hmem hm).1 hin)
  rw [Member.wayFrom, hpath, List.filter_append, hinside, houtside, List.append_nil]

/-- Drilling a member and what is found shows those within it that are reached over targets. -/
theorem drillAll_eq (isTarget : Member → Bool) : (c.subtree m).drillAll isTarget =
    h.members.filter fun x => x.isWithin m && (m.wayFrom x).all isTarget := by
  obtain ⟨-, htraced, -⟩ := hc.subtree_traced hh hm
  have hreached : ∀ x ∈ (c.subtree m).preorder,
      Tree.Reached isTarget m.ancestors x = (m.wayFrom x).all isTarget :=
    fun x hx => Tree.reached_append (hc.ancestors_eq hh hm hx)
  rw [htraced.drillAll_eq, List.filter_congr hreached, ← hc.filter_isWithin hh hm, List.filter_filter]
  exact List.filter_congr fun x _ => Bool.and_comm _ _

variable (targets : List Member) (recursive : Bool)

/-- Drilling a member shows the member first. -/
theorem exists_drillDown : ∃ rest, c.drillDown targets recursive m = m :: rest := by
  obtain ⟨htop, -, -⟩ := hc.subtree_traced hh hm
  rw [drillDown]
  rcases htree : c.subtree m with ⟨v, ts⟩
  rw [htree] at htop
  obtain rfl : v = m := htop
  cases recursive with
  | false => exact ⟨_, rfl⟩
  | true => exact ⟨_, rfl⟩

/-- Drilling a member shows what it is to show. -/
theorem drillDown_eq : c.drillDown targets recursive m = h.drilled targets recursive m := by
  cases recursive with
  | true => exact hc.drillAll_eq hh hm _
  | false =>
    obtain ⟨htop, -, hchildren⟩ := hc.subtree_traced hh hm
    rw [Hierarchy.drilled, if_neg Bool.false_ne_true, hchildren, drillDown]
    rcases htree : c.subtree m with ⟨v, ts⟩
    rw [htree] at htop
    obtain rfl : v = m := htop
    rfl

/-- If every member with children is a target, drilling a member and what is found shows all of its
descendants. -/
theorem drillDown_all (htargets : ∀ x ∈ h.members, h.children x ≠ [] → x.isAmong targets = true) :
    c.drillDown targets true m = c.descendants m m.depth .selfBeforeAfter := by
  obtain ⟨before, after, hsplit, -, above, hstands⟩ := hc.exists_subtree_block hh hm
  have hwalk : c.descendants m m.depth .selfBeforeAfter = (c.subtree m).preorder :=
    hstands.descendants_eq.trans (List.filter_eq_self.2 fun _ _ => rfl)
  rw [hwalk]
  refine hstands.drillAll_all fun x hx hchildless => htargets x ?_ ?_
  · rw [hsplit]
    simp [hx]
  · rintro hnone
    rw [hnone] at hchildless
    cases hchildless

end Cube.Built

/-! ## Lists of members -/

/-- A list of which each member is replaced by what starts with it is a sublist of the outcome. -/
theorem Member.sublist_flatMap {part : Member → List Member} {ms : List Member}
    (h : ∀ m ∈ ms, ∃ rest, part m = m :: rest) : ms.Sublist (ms.flatMap part) := by
  induction ms with
  | nil => exact List.Sublist.refl _
  | cons m ms ih =>
    obtain ⟨⟨rest, hrest⟩, hms⟩ := List.forall_mem_cons.1 h
    rw [List.flatMap_cons, hrest, List.cons_append]
    exact ((ih hms).trans (List.sublist_append_right rest _)).cons_cons m

end Olap
