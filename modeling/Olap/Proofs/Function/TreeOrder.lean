import Olap.Proofs.Evaluation.Comparison
import Olap.Proofs.Sorting.Stability

/-!
# Sorting along a tree

The way down to a member leads from its root over all of its ancestors. A sort along a hierarchy
compares members at the place where the ways down to them part (`Member.PartAt`), and an ancestor comes
before its descendants. Whatever keys the members of a hierarchy have, they are sorted to one order that
is consistent in itself (`SortPath.sorted_members`); a sort by the keys alone is the stable sort by
these.
-/

set_option autoImplicit false

namespace Olap

open Std (TransCmp OrientedCmp ReflCmp)
open Sorting (Orders)

/-! ## The way down to a member -/

namespace Member

variable {m n a : Member}

/-- The members on the way down to a member, the root first. -/
def wayDown (m : Member) : List Member := m.ancestors.reverse ++ [m]

/-- The ways down to two members part at two different ones: what comes before these is on both ways. -/
def PartAt (m n a b : Member) : Prop :=
  a ≠ b ∧ ∃ shared rest rest' : List Member,
    m.wayDown = shared ++ a :: rest ∧ n.wayDown = shared ++ b :: rest'

theorem mem_wayDown : a ∈ m.wayDown ↔ a ∈ m.ancestors ∨ a = m := by
  rw [wayDown, List.mem_append, List.mem_reverse, List.mem_singleton]

theorem ofLineage_of_mem {lineage : List MemberNode} (h : a ∈ ofLineage lineage) :
    ∃ below, ofLineage lineage = below ++ a :: a.ancestors := by
  induction lineage with
  | nil => cases h
  | cons p above ih =>
    rw [ofLineage] at h ⊢
    rcases List.mem_cons.1 h with rfl | h
    · exact ⟨[], rfl⟩
    · obtain ⟨below, hbelow⟩ := ih h
      exact ⟨⟨p, above⟩ :: below, by rw [hbelow, List.cons_append]⟩

/-- The way down to a member leads on from the way down to each of its ancestors. -/
theorem wayDown_of_mem_ancestors (h : a ∈ m.ancestors) :
    ∃ b rest, m.wayDown = a.wayDown ++ b :: rest := by
  obtain ⟨below, hbelow⟩ := ofLineage_of_mem h
  have hway : m.wayDown = a.wayDown ++ (below.reverse ++ [m]) := by
    rw [wayDown, wayDown, show m.ancestors = below ++ a :: a.ancestors from hbelow]
    simp
  rcases hrest : below.reverse ++ [m] with _ | ⟨b, rest⟩
  · simp at hrest
  · exact ⟨b, rest, hway.trans (by rw [hrest])⟩

/-- Lists of which neither is the beginning of the other part somewhere. -/
theorem exists_parting {α : Type} {xs ys : List α} (hxs : ¬ xs <+: ys) (hys : ¬ ys <+: xs) :
    ∃ a b, a ≠ b ∧ ∃ shared rest rest', xs = shared ++ a :: rest ∧ ys = shared ++ b :: rest' := by
  induction xs generalizing ys with
  | nil => exact absurd List.nil_prefix hxs
  | cons x xs ih =>
    rcases ys with _ | ⟨y, ys⟩
    · exact absurd List.nil_prefix hys
    · by_cases hxy : x = y
      · subst hxy
        rw [List.prefix_cons_inj] at hxs hys
        obtain ⟨a, b, hab, shared, rest, rest', rfl, rfl⟩ := ih hxs hys
        exact ⟨a, b, hab, x :: shared, rest, rest', rfl, rfl⟩
      · exact ⟨x, y, hxy, [], xs, ys, rfl, rfl⟩

/-- The ways down to members part somewhere if neither is an ancestor of the other. -/
theorem exists_partAt (hne : m ≠ n) (hm : m ∉ n.ancestors) (hn : n ∉ m.ancestors) :
    ∃ a b, m.PartAt n a b := by
  have hbegins {m n : Member} (h : m.wayDown <+: n.wayDown) : m ∈ n.ancestors ∨ m = n :=
    mem_wayDown.1 (h.subset (mem_wayDown.2 (.inr rfl)))
  obtain ⟨a, b, hab, hparting⟩ :=
    exists_parting (fun h => (hbegins h).elim hm hne) fun h => (hbegins h).elim hn hne.symm
  exact ⟨a, b, hab, hparting⟩

end Member

/-- With the keys `k`, of which some come ahead of others, the member `x` may stand before `y` in a sort
along the hierarchy: it is not a descendant of `y`, and if the ways down to them part, it comes first
there, by the keys, or by the ordinals if none of these comes ahead. -/
structure Member.Precedes (ahead : SortKey → SortKey → Prop) (k : Member → SortKey) (x y : Member) :
    Prop where
  not_below : y ∉ x.ancestors
  parted : x ≠ y → x ∉ y.ancestors → ∃ a b, x.PartAt y a b ∧
    (ahead (k a) (k b) ∨ ¬ ahead (k b) (k a) ∧ a.ordinal < b.ordinal)

/-- The stable sort of members by their keys, of which some come ahead of others. -/
def Member.sortByKeys (ahead : SortKey → SortKey → Prop) [DecidableRel ahead] (k : Member → SortKey)
    (ms : List Member) : List Member :=
  ms.mergeSort fun x y => ¬ ahead (k y) (k x)

/-! ## Paths from keys -/

namespace SortMode

variable (mode : SortMode)

/-- The members whose keys a sort looks at for a member. -/
def way (m : Member) : List Member := if mode.breaksHierarchy then [m] else m.wayDown

end SortMode

namespace SortPath

variable {mode : SortMode} {k : Member → SortKey} {m n a b : Member} {ps : List SortPath}

/-- The sort path of a member if the members have the keys `k`. -/
def ofKeys (mode : SortMode) (k : Member → SortKey) (m : Member) : SortPath :=
  (mode.way m).map fun a => (a.ordinal, k a)

theorem ofKeys_along (hmode : mode.breaksHierarchy = false) (m : Member) :
    ofKeys mode k m = m.wayDown.map fun a => (a.ordinal, k a) := by
  rw [ofKeys, SortMode.way, hmode]
  rfl

theorem ofKeys_alone (hmode : mode.breaksHierarchy = true) (m : Member) :
    ofKeys mode k m = [(m.ordinal, k m)] := by
  rw [ofKeys, SortMode.way, if_pos hmode]
  rfl

/-- Steps that two paths share do not count. -/
theorem order_append (shared p q : SortPath) :
    order mode (shared ++ p) (shared ++ q) = order mode p q := by
  unfold order
  induction shared with
  | nil => rfl
  | cons e shared ih =>
    have hself : mode.orderKeys e.2 e.2 = .eq := ReflCmp.compare_self
    rw [List.cons_append, List.cons_append, orderFrom_same rfl, hself]
    exact ih

theorem order_of_mem_ancestors (hmode : mode.breaksHierarchy = false) (h : a ∈ m.ancestors) :
    order mode (ofKeys mode k a) (ofKeys mode k m) = .lt := by
  obtain ⟨b, rest, hway⟩ := Member.wayDown_of_mem_ancestors h
  rw [ofKeys_along hmode, ofKeys_along hmode, hway, List.map_append]
  let path (ms : List Member) : SortPath := ms.map fun a => (a.ordinal, k a)
  have happend : order mode (path a.wayDown ++ []) (path a.wayDown ++ path (b :: rest)) =
      order mode [] (path (b :: rest)) := order_append _ _ _
  rw [List.append_nil] at happend
  exact happend

theorem order_of_partAt (hmode : mode.breaksHierarchy = false) (h : m.PartAt n a b)
    (hordinal : a.ordinal ≠ b.ordinal) : order mode (ofKeys mode k m) (ofKeys mode k n) =
      (mode.orderKeys (k a) (k b)).then (compare a.ordinal b.ordinal) := by
  obtain ⟨-, shared, rest, rest', hm, hn⟩ := h
  rw [ofKeys_along hmode, ofKeys_along hmode, hm, hn, List.map_append, List.map_append, order_append]
  exact orderFrom_parted hordinal

/-- A consistent comparison is an order to sort by. -/
theorem Consistent.orders (h : Consistent mode ps) :
    Orders (fun p q => EvalM.orderPaths mode p q == .lt) (· ∈ ps) where
  asymm {p q} hp hq hlt := by
    have hpq : EvalM.orderPaths mode p q = .lt := eq_of_beq hlt
    have hnot := h.toOrientedCmp.not_lt_of_lt (a := ⟨p, hp⟩) (b := ⟨q, hq⟩) hpq
    exact beq_eq_false_iff_ne.2 hnot
  trans {p q r} hp hq hr hqp hrq := by
    have hrq := Ordering.isGE_iff_ne_lt.2 (beq_eq_false_iff_ne.1 hrq)
    have hqp := Ordering.isGE_iff_ne_lt.2 (beq_eq_false_iff_ne.1 hqp)
    have hrp := h.isGE_trans (a := ⟨r, hr⟩) (b := ⟨q, hq⟩) (c := ⟨p, hp⟩) hrq hqp
    exact beq_eq_false_iff_ne.2 (Ordering.isGE_iff_ne_lt.1 hrp)

/-! ## Sorting the members of a hierarchy -/

section
variable {c : Cube} (hcube : c.Built) {h : Hierarchy} (hh : h ∈ c.hierarchies)
include hcube hh

theorem wayDown_mem (hm : m ∈ h.members) (ha : a ∈ m.wayDown) : a ∈ h.members := by
  rcases Member.mem_wayDown.1 ha with ha | rfl
  · exact (hcube.regular.hierarchy h hh).ancestors m hm a ha
  · exact hm

theorem consistent_along (hmode : mode.breaksHierarchy = false) {ms : List Member}
    (hms : ∀ m ∈ ms, m ∈ h.members) : Consistent mode (ms.map (ofKeys mode k)) := by
  refine consistent_of_steady hmode fun p hp q hq => steadyTo_of_agree fun e he f hf heq => ?_
  obtain ⟨m, hm, rfl⟩ := List.mem_map.1 hp
  obtain ⟨n, hn, rfl⟩ := List.mem_map.1 hq
  rw [ofKeys_along hmode] at he hf
  obtain ⟨a, ha, rfl⟩ := List.mem_map.1 he
  obtain ⟨b, hb, rfl⟩ := List.mem_map.1 hf
  have hab : a = b := hcube.eq_of_ordinal hh (wayDown_mem hcube hh (hms m hm) ha)
    (wayDown_mem hcube hh (hms n hn) hb) heq
  rw [hab]

/-- What stands first in a sorted list may do so. -/
theorem precedes_of_not_gt (hmode : mode.breaksHierarchy = false) (hm : m ∈ h.members)
    (hn : n ∈ h.members) (hle : order mode (ofKeys mode k n) (ofKeys mode k m) ≠ .lt) :
    Member.Precedes mode.Ahead k m n := by
  refine ⟨fun hbelow => hle (order_of_mem_ancestors hmode hbelow), fun hne habove => ?_⟩
  have hbelow : n ∉ m.ancestors := fun h => hle (order_of_mem_ancestors hmode h)
  obtain ⟨a, b, hpart⟩ := Member.exists_partAt hne habove hbelow
  refine ⟨a, b, hpart, ?_⟩
  have hordinal : a.ordinal ≠ b.ordinal := by
    obtain ⟨hab, shared, rest, rest', ha, hb⟩ := hpart
    refine fun heq => hab (hcube.eq_of_ordinal hh (wayDown_mem hcube hh hm ?_)
      (wayDown_mem hcube hh hn ?_) heq)
    · rw [ha]
      simp
    · rw [hb]
      simp
  rw [order_swap mode (ofKeys mode k m) (ofKeys mode k n), order_of_partAt hmode hpart hordinal] at hle
  unfold SortMode.Ahead
  cases hkeys : mode.orderKeys (k a) (k b) with
  | lt => exact .inl rfl
  | eq =>
    have hkeys' : mode.orderKeys (k b) (k a) = .eq := OrientedCmp.eq_symm hkeys
    refine .inr ⟨fun hlt => Ordering.noConfusion (hkeys'.symm.trans hlt), ?_⟩
    rw [hkeys] at hle
    by_contra hnot
    exact hle (congrArg Ordering.swap (Nat.compare_eq_gt.2 (by omega)))
  | gt =>
    rw [hkeys] at hle
    exact absurd rfl hle

end

/-- A sort by the keys alone compares nothing else. -/
theorem orderPaths_alone (hmode : mode.breaksHierarchy = true) (m n : Member) :
    EvalM.orderPaths mode (ofKeys mode k m) (ofKeys mode k n) = mode.orderKeys (k m) (k n) := by
  rw [ofKeys_alone hmode, ofKeys_alone hmode, EvalM.orderPaths, if_pos hmode]

theorem consistent_alone (hmode : mode.breaksHierarchy = true) (ms : List Member) :
    Consistent mode (ms.map (ofKeys mode k)) where
  eq_swap {p q} := by
    obtain ⟨p, hp⟩ := p
    obtain ⟨q, hq⟩ := q
    obtain ⟨m, -, rfl⟩ := List.mem_map.1 hp
    obtain ⟨n, -, rfl⟩ := List.mem_map.1 hq
    rw [orderPaths_alone hmode, orderPaths_alone hmode]
    exact OrientedCmp.eq_swap
  isLE_trans {p q r} hpq hqr := by
    obtain ⟨p, hp⟩ := p
    obtain ⟨q, hq⟩ := q
    obtain ⟨r, hr⟩ := r
    obtain ⟨m, -, rfl⟩ := List.mem_map.1 hp
    obtain ⟨n, -, rfl⟩ := List.mem_map.1 hq
    obtain ⟨o, -, rfl⟩ := List.mem_map.1 hr
    rw [orderPaths_alone hmode] at hpq hqr ⊢
    exact TransCmp.isLE_trans hpq hqr

/-- A sort by the keys alone is the stable sort by the keys. -/
theorem sorted_alone (hmode : mode.breaksHierarchy = true) {ms : List Member}
    {sorted : List (Member × Nat)} (hperm : sorted.Perm ms.zipIdx)
    (hsorted : sorted.Pairwise fun e f =>
      (EvalM.orderPaths mode (ofKeys mode k e.1) (ofKeys mode k f.1) == .lt) = true ∨
        (EvalM.orderPaths mode (ofKeys mode k f.1) (ofKeys mode k e.1) == .lt) = false ∧ e.2 < f.2) :
    sorted.map Prod.fst = Member.sortByKeys mode.Ahead k ms := by
  let le (x y : Member) : Bool := (mode.orderKeys (k x) (k y)).isLE
  have hswap (x y : Member) : mode.orderKeys (k y) (k x) = (mode.orderKeys (k x) (k y)).swap :=
    OrientedCmp.eq_swap
  have hle : Member.sortByKeys mode.Ahead k ms = ms.mergeSort le := by
    refine congrArg (fun le => ms.mergeSort le) (funext₂ fun x y => ?_)
    simp only [SortMode.Ahead, hswap x y, le]
    cases mode.orderKeys (k x) (k y) <;> rfl
  rw [hle]
  have htrans (x y z : Member) (hxy : le x y = true) (hyz : le y z = true) : le x z = true :=
    TransCmp.isLE_trans hxy hyz
  have htotal (x y : Member) : (le x y || le y x) = true := by
    show ((mode.orderKeys (k x) (k y)).isLE || (mode.orderKeys (k y) (k x)).isLE) = true
    rw [hswap x y]
    cases mode.orderKeys (k x) (k y) <;> rfl
  have hplaced : sorted.Pairwise fun e f => List.zipIdxLE le e f = true := by
    refine hsorted.imp fun {e f} hbefore => ?_
    rw [orderPaths_alone hmode, orderPaths_alone hmode] at hbefore
    unfold List.zipIdxLE
    rcases hbefore with hlt | ⟨hnot, hplace⟩
    · have hlt : mode.orderKeys (k e.1) (k f.1) = .lt := eq_of_beq hlt
      have hgt : mode.orderKeys (k f.1) (k e.1) = .gt := OrientedCmp.gt_of_lt hlt
      have hle : le e.1 f.1 = true := by simp [le, hlt]
      have hnot : le f.1 e.1 = false := by simp [le, hgt]
      rw [if_pos hle, hnot]
      rfl
    · have hle : le e.1 f.1 = true :=
        OrientedCmp.isLE_of_isGE (Ordering.isGE_iff_ne_lt.2 (beq_eq_false_iff_ne.1 hnot))
      rw [if_pos hle, decide_eq_true (Nat.le_of_lt hplace), ite_self]
  exact Sorting.eq_mergeSort htrans htotal hperm hplaced

/-- The members of a hierarchy, in any number, are sorted to a list that the mode asks for, whatever the
keys are. -/
theorem sorted_members {c : Cube} (hcube : c.Built) {h : Hierarchy} (hh : h ∈ c.hierarchies)
    {ms : List Member} (hms : ∀ m ∈ ms, m ∈ h.members) :
    ∃ sorted : List (Member × Nat), sorted.Perm ms.zipIdx ∧
      Sorting.stableSort (fun e f => EvalM.orderPaths mode e.2 f.2 == .lt)
          ((List.range ms.length).zip (ms.map (ofKeys mode k))) =
        sorted.map (fun e => (e.2, ofKeys mode k e.1)) ∧
      (mode.breaksHierarchy = false →
        (sorted.map Prod.fst).Pairwise (Member.Precedes mode.Ahead k)) ∧
      (mode.breaksHierarchy = true → sorted.map Prod.fst = Member.sortByKeys mode.Ahead k ms) := by
  have hconsistent : Consistent mode (ms.map (ofKeys mode k)) := by
    cases hmode : mode.breaksHierarchy with
    | false => exact consistent_along hcube hh hmode hms
    | true => exact consistent_alone hmode ms
  obtain ⟨sorted, hperm, hsort, hsorted⟩ := hconsistent.orders.stableSort_zip (ofKeys mode k)
    fun m hm => List.mem_map_of_mem hm
  refine ⟨sorted, hperm, hsort, fun hmode => ?_, fun hmode => sorted_alone hmode hperm hsorted⟩
  have hmem {e : Member × Nat} (he : e ∈ sorted) : e.1 ∈ h.members :=
    hms e.1 (List.mem_of_getElem? (List.mem_zipIdx_iff_getElem?.1 (hperm.mem_iff.1 he)))
  refine List.pairwise_map.2 (hsorted.imp_of_mem fun {e f} he hf hbefore => ?_)
  refine precedes_of_not_gt hcube hh hmode (hmem he) (hmem hf) ?_
  rw [orderPaths_eq hmode] at hbefore
  rcases hbefore with hlt | ⟨hnot, -⟩
  · rw [order_swap, eq_of_beq hlt]
    nofun
  · exact beq_eq_false_iff_ne.1 hnot

end SortPath

end Olap
