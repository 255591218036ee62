import Olap.Cell.Reader
import Olap.Proofs.Catalog.Preorder
import Olap.Proofs.Function.TreeOrder
import Mathlib.Logic.Basic

/-!
# Cells roll up

A fact counts for a cell if each of its members stands at the coordinate's member or below it. In a
tree a member below another one is below exactly one of its children, so the facts that are summed for
a member of a hierarchy are those recorded for the member itself and, apart from these and from each
other, those that are summed for its children (`Cube.Built.cells_roll_up`).
-/

set_option autoImplicit false

namespace Olap

/-! ## Parting lists -/

section
variable {α β : Type}

/-- What one of two tests selects, and never both, is selected by each of them in turn. -/
theorem perm_filter_or {p q r : α → Bool} {xs : List α} (hor : ∀ x ∈ xs, r x = (p x || q x))
    (hapart : ∀ x ∈ xs, p x = true → q x = false) :
    (xs.filter r).Perm (xs.filter p ++ xs.filter q) := by
  have hfirst : (xs.filter r).filter p = xs.filter p := by
    rw [List.filter_filter]
    refine List.filter_congr fun x hx => ?_
    rw [hor x hx]
    cases p x <;> rfl
  have hsecond : (xs.filter r).filter (fun x => !p x) = xs.filter q := by
    rw [List.filter_filter]
    refine List.filter_congr fun x hx => ?_
    rw [hor x hx]
    cases hp : p x
    · simp
    · simp [hapart x hx hp]
  have hparts := (xs.filter r).filter_append_perm p
  rw [hfirst, hsecond] at hparts
  exact hparts.symm

/-- What is selected by one of several tests, and never by two, is parted by them. -/
theorem perm_filter_any {r : β → α → Bool} {xs : List α} {keys : List β} (hkeys : keys.Nodup)
    (hone : ∀ x ∈ xs, ∀ k ∈ keys, ∀ k' ∈ keys, r k x = true → r k' x = true → k = k') :
    (xs.filter fun x => keys.any (r · x)).Perm (keys.flatMap fun k => xs.filter (r k)) := by
  induction keys with
  | nil =>
    simp only [List.any_nil, List.flatMap_nil]
    rw [List.filter_false]
  | cons k keys ih =>
    obtain ⟨hfresh, hkeys⟩ := List.nodup_cons.1 hkeys
    have hrest := ih hkeys fun x hx a ha b hb =>
      hone x hx a (List.mem_cons_of_mem k ha) b (List.mem_cons_of_mem k hb)
    rw [List.flatMap_cons]
    refine (perm_filter_or (fun x _ => List.any_cons) fun x hx hk => ?_).trans
      (hrest.append_left _)
    rw [List.any_eq_false]
    intro a ha hx'
    have heq := hone x hx k List.mem_cons_self a (List.mem_cons_of_mem k ha) hk hx'
    rw [heq] at hfresh
    exact hfresh ha

end

/-! ## Children and what lies below them -/

namespace Member

variable {m n n' f : Member}

/-- The ancestors of a member are its parent and the ancestors of this. -/
theorem ancestors_of_parent? (hn : n.parent? = some m) (h : f = n ∨ n ∈ f.ancestors) :
    m ∈ f.ancestors := by
  have hself : m ∈ n.ancestors := by
    rw [parent?_eq_some.1 hn]
    exact List.mem_cons_self
  rcases h with rfl | h
  · exact hself
  · obtain ⟨below, hbelow⟩ := ofLineage_of_mem h
    rw [ancestors, hbelow]
    exact List.mem_append_right below (List.mem_cons_of_mem n hself)

/-- A member is below another one through one of its children. -/
theorem mem_ancestors_iff_child :
    m ∈ f.ancestors ↔ ∃ n, n.parent? = some m ∧ (f = n ∨ n ∈ f.ancestors) := by
  constructor
  · intro h
    rcases f with ⟨node, lineage⟩
    induction lineage generalizing node with
    | nil => cases h
    | cons p above ih =>
      rcases List.mem_cons.1 h with heq | h
      · rw [heq]
        exact ⟨_, rfl, .inl rfl⟩
      · obtain ⟨n, hn, hwithin⟩ := ih p h
        refine ⟨n, hn, .inr ?_⟩
        rcases hwithin with heq | hmem
        · rw [← heq]
          exact List.mem_cons_self
        · exact List.mem_cons_of_mem _ hmem
  · intro h
    obtain ⟨n, hn, hwithin⟩ := h
    exact ancestors_of_parent? hn hwithin

/-- A member with its ancestors ends with any of these and its ancestors. -/
theorem exists_below (h : f = n ∨ n ∈ f.ancestors) :
    ∃ below, f :: f.ancestors = below ++ n :: n.ancestors := by
  rcases h with rfl | h
  · exact ⟨[], rfl⟩
  · obtain ⟨below, hbelow⟩ := ofLineage_of_mem h
    exact ⟨f :: below, congrArg (f :: ·) hbelow⟩

/-- Two children of one member have no descendants in common. -/
theorem eq_of_parent?_eq (hn : n.parent? = some m) (hn' : n'.parent? = some m)
    (h : f = n ∨ n ∈ f.ancestors) (h' : f = n' ∨ n' ∈ f.ancestors) : n = n' := by
  obtain ⟨below, hbelow⟩ := exists_below h
  obtain ⟨below', hbelow'⟩ := exists_below h'
  rw [parent?_eq_some.1 hn] at hbelow
  rw [parent?_eq_some.1 hn', hbelow] at hbelow'
  -- what follows the children is the same, so they stand at the same place
  have hlength : below.length = below'.length := by
    have := congrArg List.length hbelow'
    simp only [List.length_append, List.length_cons] at this
    omega
  exact (List.cons.inj (List.append_inj_right hbelow' hlength)).1

/-- A member neither is its child nor stands below it. -/
theorem not_below_child (hn : n.parent? = some m) : ¬ (m = n ∨ n ∈ m.ancestors) := by
  intro h
  obtain ⟨below, hbelow⟩ := exists_below h
  have hlength := congrArg List.length hbelow
  rw [parent?_eq_some.1 hn] at hlength
  simp only [List.length_append, List.length_cons] at hlength
  omega

end Member

namespace Hierarchy.Arranged

variable {h : Hierarchy} {log : List Accepted} (ha : h.Arranged log) {m n n' f : Member}
include ha

theorem isWithin_iff (hf : f ∈ h.members) (hm : m ∈ h.members) :
    f.isWithin m = true ↔ f = m ∨ m ∈ f.ancestors := by
  obtain ⟨t, -, -, -, hwithin⟩ := ha.subtree m hm
  exact (hwithin f hf).1

theorem children_nodup (hm : m ∈ h.members) : (h.children m).Nodup := by
  have hmembers : (h.members.map (·.label)).Nodup := by
    refine List.Nodup.of_map Prod.snd ?_
    rw [List.map_map]
    exact ha.distinct
  have hchildren : ((h.children m).map (·.label)).Nodup := by
    rw [ha.children_order m hm]
    exact (List.filter_sublist.map _).nodup (ha.members.nodup_iff.1 hmembers)
  exact hchildren.of_map

variable (hm : m ∈ h.members)
include hm

theorem isWithin_child_iff (hf : f ∈ h.members) (hn : n ∈ h.children m) :
    f.isWithin n = true ↔ f = n ∨ n ∈ f.ancestors :=
  ha.isWithin_iff hf ((ha.children m hm n).1 hn).1

/-- What lies within a member is the member or lies within one of its children. -/
theorem isWithin_iff_child (hr : h.Regular) (hf : f ∈ h.members) :
    f.isWithin m = true ↔ f = m ∨ ∃ n ∈ h.children m, f.isWithin n = true := by
  rw [ha.isWithin_iff hf hm, Member.mem_ancestors_iff_child]
  refine or_congr_right ⟨fun hbelow => ?_, fun hbelow => ?_⟩
  · obtain ⟨n, hn, hwithin⟩ := hbelow
    have hmem : n ∈ h.members := by
      rcases hwithin with rfl | habove
      · exact hf
      · exact hr.ancestors f hf n habove
    have hchild := (ha.children m hm n).2 ⟨hmem, hn⟩
    exact ⟨n, hchild, (ha.isWithin_child_iff hm hf hchild).2 hwithin⟩
  · obtain ⟨n, hn, hwithin⟩ := hbelow
    exact ⟨n, ((ha.children m hm n).1 hn).2, (ha.isWithin_child_iff hm hf hn).1 hwithin⟩

/-- Nothing lies within two children of a member. -/
theorem child_eq (hf : f ∈ h.members) (hn : n ∈ h.children m) (hn' : n' ∈ h.children m)
    (hwithin : f.isWithin n = true) (hwithin' : f.isWithin n' = true) : n = n' := by
  refine Member.eq_of_parent?_eq (f := f) ((ha.children m hm n).1 hn).2
    ((ha.children m hm n').1 hn').2 ?_ ?_
  · exact (ha.isWithin_child_iff hm hf hn).1 hwithin
  · exact (ha.isWithin_child_iff hm hf hn').1 hwithin'

/-- A member does not lie within its children. -/
theorem not_isWithin_child (hn : n ∈ h.children m) : ¬ m.isWithin n = true := by
  rw [ha.isWithin_child_iff hm hm hn]
  exact Member.not_below_child ((ha.children m hm n).1 hn).2

end Hierarchy.Arranged

/-- The members of every hierarchy of a cube that has been built are arranged as some log lists them. -/
theorem Cube.Built.exists_arranged {c : Cube} (hc : c.Built) {h : Hierarchy}
    (hh : h ∈ c.hierarchies) : ∃ log, h.Arranged log := by
  obtain ⟨d, log, dimension, kind, ordinal, hr, hd, hb⟩ := hc.exists_records hh
  exact ⟨log, hr.arranged hd hb⟩

/-! ## Facts -/

namespace Fact

/-- The fact holds one member of the hierarchy, and this is `f`. -/
structure Holds (fact : Fact) (h : Hierarchy) (f : Member) : Prop where
  known : f ∈ h.members
  held : f ∈ fact.members
  only : ∀ n ∈ fact.members, n.hierarchyOrdinal = h.ordinal → n = f

/-- The fact matches a coordinate on all hierarchies but one. -/
def matchesBeside (fact : Fact) (ordinal : Nat) (coordinate : List Member) : Bool :=
  fact.members.all fun n =>
    n.hierarchyOrdinal == ordinal || coordinate[n.hierarchyOrdinal]?.any (n.isWithin ·)

/-- The fact is recorded for the member itself. -/
def isRecordedFor (fact : Fact) (m : Member) : Bool :=
  fact.members.any fun n => n.hierarchyOrdinal == m.hierarchyOrdinal && n == m

/-- The sum of facts, in their order; no number if there are none. -/
def sum : List Fact → Option Double
  | [] => none
  | fact :: facts => some (facts.foldl (fun total f => total + f.value) (0 + fact.value))

theorem foldl_some (facts : List Fact) (total : Double) :
    facts.foldl (fun (t : Option Double) f => some (t.getD 0 + f.value)) (some total) =
      some (facts.foldl (fun t f => t + f.value) total) := by
  induction facts generalizing total with
  | nil => rfl
  | cons fact facts ih => exact ih _

end Fact

theorem totalAt_eq_sum (facts : List Fact) (κ : List Member) :
    totalAt facts κ = Fact.sum (facts.filter (·.matchesAt κ)) := by
  rw [totalAt, ← List.foldl_filter]
  generalize facts.filter (·.matchesAt κ) = matching
  rcases matching with _ | ⟨fact, matching⟩
  · rfl
  · exact Fact.foldl_some matching _

theorem Fact.sum_eq_none {facts : List Fact} : Fact.sum facts = none ↔ facts = [] := by
  cases facts <;> simp [Fact.sum]

namespace Fact.Holds

variable {fact : Fact} {h : Hierarchy} {f : Member} (hf : fact.Holds h f) (hr : h.Regular)
include hf hr

/-- With a member put in place a fact matches if its own member lies within that member, and the others
match. -/
theorem matchesAt_set_iff {κ : List Member} (hκ : h.ordinal < κ.length) (m : Member) :
    fact.matchesAt (κ.set h.ordinal m) = true ↔
      f.isWithin m = true ∧ fact.matchesBeside h.ordinal κ = true := by
  have hat : (κ.set h.ordinal m)[h.ordinal]? = some m := List.getElem?_set_self hκ
  unfold matchesAt matchesBeside
  rw [List.all_eq_true, List.all_eq_true]
  constructor
  · intro hall
    constructor
    · have hself := hall f hf.held
      rwa [hr.ordinal f hf.known, hat] at hself
    · intro n hn
      by_cases ho : n.hierarchyOrdinal = h.ordinal
      · rw [beq_iff_eq.2 ho, Bool.true_or]
      · have hother := hall n hn
        rw [List.getElem?_set_ne (Ne.symm ho)] at hother
        rw [hother, Bool.or_true]
  · intro hparts n hn
    obtain ⟨hwithin, hbeside⟩ := hparts
    by_cases ho : n.hierarchyOrdinal = h.ordinal
    · rw [ho, hat, hf.only n hn ho]
      exact hwithin
    · rw [List.getElem?_set_ne (Ne.symm ho)]
      have hother := hbeside n hn
      rwa [beq_false_of_ne ho, Bool.false_or] at hother

theorem isRecordedFor_iff {m : Member} (hm : m ∈ h.members) :
    fact.isRecordedFor m = true ↔ f = m := by
  unfold isRecordedFor
  rw [List.any_eq_true]
  constructor
  · intro hany
    obtain ⟨n, hn, hboth⟩ := hany
    rw [Bool.and_eq_true, beq_iff_eq, hr.ordinal m hm, Member.beq_def, beq_iff_eq] at hboth
    obtain ⟨ho, hname⟩ := hboth
    rw [hf.only n hn ho] at hname
    exact List.inj_on_of_nodup_map hr.names hf.known hm hname
  · intro heq
    subst heq
    exact ⟨f, hf.held, by rw [Member.beq_def, beq_self_eq_true, beq_self_eq_true]; rfl⟩

end Fact.Holds

/-! ## Cells -/

section
variable {h : Hierarchy} {log : List Accepted} (ha : h.Arranged log) (hr : h.Regular) {m : Member}
  (hm : m ∈ h.members) {κ : List Member} (hκ : h.ordinal < κ.length)
include ha hr hm hκ

/-- A fact that matches at a member is recorded for it or matches at a child. -/
theorem Fact.Holds.matchesAt_iff_child {fact : Fact} {f : Member} (hf : fact.Holds h f) :
    fact.matchesAt (κ.set h.ordinal m) = true ↔
      (f = m ∧ fact.matchesBeside h.ordinal κ = true) ∨
        ∃ n ∈ h.children m, fact.matchesAt (κ.set h.ordinal n) = true := by
  rw [hf.matchesAt_set_iff hr hκ, ha.isWithin_iff_child hm hr hf.known, or_and_right]
  refine or_congr_right ⟨fun hbelow => ?_, fun hbelow => ?_⟩
  · obtain ⟨hchild, hbeside⟩ := hbelow
    obtain ⟨n, hn, hwithin⟩ := hchild
    exact ⟨n, hn, (hf.matchesAt_set_iff hr hκ n).2 ⟨hwithin, hbeside⟩⟩
  · obtain ⟨n, hn, hmatch⟩ := hbelow
    obtain ⟨hwithin, hbeside⟩ := (hf.matchesAt_set_iff hr hκ n).1 hmatch
    exact ⟨⟨n, hn, hwithin⟩, hbeside⟩

theorem Fact.Holds.matching_child_eq {fact : Fact} {f : Member} (hf : fact.Holds h f) {n n' : Member}
    (hn : n ∈ h.children m) (hn' : n' ∈ h.children m)
    (hmatch : fact.matchesAt (κ.set h.ordinal n) = true)
    (hmatch' : fact.matchesAt (κ.set h.ordinal n') = true) : n = n' :=
  ha.child_eq hm hf.known hn hn' ((hf.matchesAt_set_iff hr hκ n).1 hmatch).1
    ((hf.matchesAt_set_iff hr hκ n').1 hmatch').1

/-- A fact that is recorded for a member does not match at its children. -/
theorem Fact.Holds.not_matchesAt_child {fact : Fact} (hf : fact.Holds h m) {n : Member}
    (hn : n ∈ h.children m) : ¬ fact.matchesAt (κ.set h.ordinal n) = true := by
  rw [hf.matchesAt_set_iff hr hκ]
  intro hmatch
  exact ha.not_isWithin_child hm hn hmatch.1

/-- A fact that matches at a member is recorded for it, or else it matches at exactly one child. -/
theorem Fact.Holds.matchesAt_iff_xor {fact : Fact} {f : Member} (hf : fact.Holds h f) :
    fact.matchesAt (κ.set h.ordinal m) = true ↔
      Xor (f = m ∧ fact.matchesBeside h.ordinal κ = true)
        (∃! n, n ∈ h.children m ∧ fact.matchesAt (κ.set h.ordinal n) = true) := by
  have hnone : f = m → ∀ n ∈ h.children m, ¬ fact.matchesAt (κ.set h.ordinal n) = true := by
    intro heq n hn
    subst heq
    exact hf.not_matchesAt_child ha hr hm hκ hn
  rw [hf.matchesAt_iff_child ha hr hm hκ]
  constructor
  · intro hmatch
    rcases hmatch with hself | hchild
    · refine .inl ⟨hself, fun hchild => ?_⟩
      obtain ⟨n, hn, -⟩ := hchild
      exact hnone hself.1 n hn.1 hn.2
    · obtain ⟨n, hn, hmatch⟩ := hchild
      refine .inr ⟨⟨n, ⟨hn, hmatch⟩, ?_⟩, fun hself => hnone hself.1 n hn hmatch⟩
      exact fun n' hn' => hf.matching_child_eq ha hr hm hκ hn'.1 hn hn'.2 hmatch
  · intro hxor
    rcases hxor with hself | hchild
    · exact .inl hself.1
    · obtain ⟨n, hn, -⟩ := hchild.1
      exact .inr ⟨n, hn⟩

/-- The facts that match at a member are those recorded for it and those that match at its children. -/
theorem Fact.perm_matching {facts : List Fact} (hfacts : ∀ fact ∈ facts, ∃ f, fact.Holds h f) :
    (facts.filter (·.matchesAt (κ.set h.ordinal m))).Perm
      ((facts.filter fun fact => fact.isRecordedFor m && fact.matchesBeside h.ordinal κ) ++
        (h.children m).flatMap fun n => facts.filter (·.matchesAt (κ.set h.ordinal n))) := by
  have hchildren : (facts.filter fun fact =>
      (h.children m).any fun n => fact.matchesAt (κ.set h.ordinal n)).Perm
      ((h.children m).flatMap fun n => facts.filter (·.matchesAt (κ.set h.ordinal n))) := by
    refine perm_filter_any (ha.children_nodup hm) ?_
    intro fact hfact n hn n' hn' hmatch hmatch'
    obtain ⟨f, hf⟩ := hfacts fact hfact
    exact hf.matching_child_eq ha hr hm hκ hn hn' hmatch hmatch'
  refine (perm_filter_or ?_ ?_).trans (hchildren.append_left _)
  · intro fact hfact
    obtain ⟨f, hf⟩ := hfacts fact hfact
    rw [Bool.eq_iff_iff, hf.matchesAt_iff_child ha hr hm hκ, Bool.or_eq_true, Bool.and_eq_true,
      hf.isRecordedFor_iff hr hm, List.any_eq_true]
  · intro fact hfact hrecorded
    obtain ⟨f, hf⟩ := hfacts fact hfact
    rw [Bool.and_eq_true, hf.isRecordedFor_iff hr hm] at hrecorded
    obtain ⟨heq, -⟩ := hrecorded
    subst heq
    rw [List.any_eq_false]
    exact fun n hn => hf.not_matchesAt_child ha hr hm hκ hn

end

theorem CellReader.get_memory (facts : List Fact) (κ : List Member) :
    ((CellReader.memory facts).get κ).1 = .ready (Fact.sum (facts.filter (·.matchesAt κ))) := by
  rw [get, totalAt_eq_sum]

/-- Cells roll up along every hierarchy of a cube that has been built. A fact that holds one member of
the hierarchy matches at a member if it is recorded for it or matches at exactly one child, but not both.
So the facts that are summed for a member are those recorded for it together with those summed for its
children, and its cell is empty if none of these are there. -/
theorem Cube.Built.cells_roll_up {c : Cube} (hc : c.Built) {h : Hierarchy} (hh : h ∈ c.hierarchies)
    {m : Member} (hm : m ∈ h.members) {κ : List Member} (hκ : c.Coordinate κ) :
    (∀ (fact : Fact) (f : Member), fact.Holds h f →
      (fact.matchesAt (κ.set h.ordinal m) = true ↔
        Xor (f = m ∧ fact.matchesBeside h.ordinal κ = true)
          (∃! n, n ∈ h.children m ∧ fact.matchesAt (κ.set h.ordinal n) = true)) ∧
      ∀ n ∈ h.children m, ∀ n' ∈ h.children m, fact.matchesAt (κ.set h.ordinal n) = true →
        fact.matchesAt (κ.set h.ordinal n') = true → n = n') ∧
    ∀ facts : List Fact, (∀ fact ∈ facts, ∃ f, fact.Holds h f) →
      let summed (n : Member) := facts.filter (·.matchesAt (κ.set h.ordinal n))
      let recorded := facts.filter fun fact =>
        fact.isRecordedFor m && fact.matchesBeside h.ordinal κ
      let cell (n : Member) := ((CellReader.memory facts).get (κ.set h.ordinal n)).1
      (∀ n, cell n = .ready (Fact.sum (summed n))) ∧
        (summed m).Perm (recorded ++ (h.children m).flatMap summed) ∧
        (cell m = .ready none ↔ recorded = [] ∧ ∀ n ∈ h.children m, cell n = .ready none) := by
  obtain ⟨log, ha⟩ := hc.exists_arranged hh
  have hr := hc.regular.hierarchy h hh
  have hlt : h.ordinal < κ.length := by
    obtain ⟨i, hi⟩ := List.getElem?_of_mem hh
    obtain ⟨hlt, -⟩ := List.getElem?_eq_some_iff.1 hi
    rw [hc.regular.ordinal i h hi, hκ.length]
    exact hlt
  constructor
  · intro fact f hf
    refine ⟨hf.matchesAt_iff_xor ha hr hm hlt, fun n hn n' hn' => ?_⟩
    exact hf.matching_child_eq ha hr hm hlt hn hn'
  · intro facts hfacts summed recorded cell
    have hcell : ∀ n, cell n = .ready (Fact.sum (summed n)) :=
      fun n => CellReader.get_memory facts (κ.set h.ordinal n)
    have hempty : ∀ n, cell n = .ready none ↔ summed n = [] := by
      intro n
      rw [hcell, CellLookup.ready.injEq, Fact.sum_eq_none]
    have hperm : (summed m).Perm (recorded ++ (h.children m).flatMap summed) :=
      Fact.perm_matching ha hr hm hlt hfacts
    refine ⟨hcell, hperm, ?_⟩
    calc cell m = .ready none
        ↔ summed m = [] := hempty m
      _ ↔ recorded ++ (h.children m).flatMap summed = [] := by
        rw [← List.perm_nil, ← List.perm_nil]
        exact ⟨hperm.symm.trans, hperm.trans⟩
      _ ↔ recorded = [] ∧ ∀ n ∈ h.children m, summed n = [] := by
        rw [List.append_eq_nil_iff, List.flatMap_eq_nil_iff]
      _ ↔ recorded = [] ∧ ∀ n ∈ h.children m, cell n = .ready none := by
        simp only [hempty]

/-! ## A year and its quarter -/

namespace Sample

theorem calendarCube_hierarchies : calendarCube.hierarchies ≠ [] := by
  have hcount : calendarCube.hierarchies.length = 3 := by decide +kernel
  intro hnil
  rw [hnil] at hcount
  cases hcount

/-- The first of the calendars. -/
def calendar : Hierarchy := calendarCube.hierarchies.head calendarCube_hierarchies

def dateOf (k : Nat) : Member := calendar.members.getD k calendar.defaultMember

theorem dateOf_mem (k : Nat) : dateOf k ∈ calendar.members := by
  rw [dateOf, List.getD_eq_getElem?_getD]
  rcases hk : calendar.members[k]? with _ | m
  · exact calendar.defaultMember_mem_members
  · exact List.mem_of_getElem? hk

/-- A number for the year itself, and two for its quarter. -/
def dateFacts : List Fact := [⟨[dateOf 1], 1⟩, ⟨[dateOf 2], 2⟩, ⟨[dateOf 2], 3⟩]

theorem dateFacts_holds : ∀ fact ∈ dateFacts, ∃ f, fact.Holds calendar f := by
  have hone (k : Nat) (value : Double) : (⟨[dateOf k], value⟩ : Fact).Holds calendar (dateOf k) := by
    refine ⟨dateOf_mem k, List.mem_singleton_self _, ?_⟩
    intro n hn _
    exact List.mem_singleton.1 hn
  intro fact hfact
  simp only [dateFacts, List.mem_cons, List.not_mem_nil, or_false] at hfact
  rcases hfact with rfl | rfl | rfl
  · exact ⟨_, hone 1 1⟩
  · exact ⟨_, hone 2 2⟩
  · exact ⟨_, hone 2 3⟩

theorem cells_roll_up_year :
    let κ := calendarCube.defaultMembers
    let year := dateOf 1
    let summed (n : Member) := dateFacts.filter (·.matchesAt (κ.set calendar.ordinal n))
    let recorded := dateFacts.filter fun fact =>
      fact.isRecordedFor year && fact.matchesBeside calendar.ordinal κ
    calendarCube.Built ∧ calendar ∈ calendarCube.hierarchies ∧ year ∈ calendar.members ∧
      calendarCube.Coordinate κ ∧ (∀ fact ∈ dateFacts, ∃ f, fact.Holds calendar f) ∧
      recorded.length = 1 ∧ (calendar.children year).map (·.name) = ["Q1"] ∧
      (summed (dateOf 2)).length = 2 ∧
      (summed year).Perm (recorded ++ (calendar.children year).flatMap summed) := by
  intro κ year summed recorded
  have hcalendar : calendar ∈ calendarCube.hierarchies := List.head_mem calendarCube_hierarchies
  have hκ := calendarCube.coordinate_defaultMembers
  obtain ⟨-, hsummed⟩ :=
    Cube.Built.cells_roll_up calendarCube_built hcalendar (dateOf_mem 1) hκ
  obtain ⟨-, hperm, -⟩ := hsummed dateFacts dateFacts_holds
  exact ⟨calendarCube_built, hcalendar, dateOf_mem 1, hκ, dateFacts_holds, by decide +kernel,
    by decide +kernel, by decide +kernel, hperm⟩

end Sample

end Olap
