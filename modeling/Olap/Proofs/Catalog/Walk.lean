import Olap.Proofs.Catalog.Preorder
import Olap.Proofs.Catalog.Roster

/-!
# The walk over a roster

The walk with a stack visits the entries of a roster in the pre-order of the forest that they stand for,
and finishes the members that the forest is finished to (`Roster.walk_forest`). So a roster and a draft
that belong together are finished to the same hierarchy (`Roster.Lists.build`), and the hierarchies of a
cube that has been built are those that walks over rosters give (`Cube.Built.exists_roster`).
-/

set_option autoImplicit false

namespace Olap

namespace HierarchyDraft

mutual

/-- The members of a finished tree know what stands above them. -/
theorem buildTree_traces (level : Level) (below : List Level) (above : List MemberNode) (next : Nat) :
    ∀ t : Tree MemberDraft, (buildTree level below above next t).1.Each
      (Tree.Traces Member.ancestors) (Member.ofLineage above)
  | .node d ts =>
    ⟨rfl, buildForest_traces below (⟨d.name, d.uniqueName, level, d.kind, next⟩ :: above) (next + 1) ts⟩

theorem buildForest_traces (levels : List Level) (above : List MemberNode) (next : Nat) :
    ∀ ts : List (Tree MemberDraft), Tree.EachIn (Tree.Traces Member.ancestors)
      (Member.ofLineage above) (buildForest levels above next ts).1
  | [] => trivial
  | t :: ts => by
    cases levels with
    | nil => exact trivial
    | cons level below =>
      exact ⟨buildTree_traces level below above next t, buildForest_traces (level :: below) above _ ts⟩

end

end HierarchyDraft

namespace Roster

variable {r : Roster} {h : HierarchyDraft}

/-! ## The walk -/

/-- A list that can be walked over: every entry stands at one place and behind its parent, and the places
below each place are known. -/
structure Walkable (ms : List RosterEntry) (children : List (List Nat)) : Prop where
  distinct : (ms.map (·.uniqueName)).Nodup
  earlier : ∀ (i : Nat) (e : RosterEntry) (p : Nat), ms[i]? = some e → e.parent = some p → p < i
  below : ∀ i < ms.length, children[i]? = some (placesIn (some i) ms.zipIdx)

section
variable {levels : List Level} {ms : List RosterEntry} {children : List (List Nat)}
  (hw : Walkable ms children)
include hw

mutual

/-- The walk visits the subtree of the place on top of the stack before anything else, and finishes its
members. What it has finished at earlier places stays. -/
theorem walk_tree : ∀ (t : Tree MemberDraft) (upper : List MemberDraft) (above : List MemberNode)
    (level : Level) (i : Nat) (parent : Option Nat) (rounds : Nat) (stack : List Nat)
    (built : List (Option Member)) (ordered : List Member), upper.length = above.length →
      levels[above.length]? = some level → t.Each (Held ms levels.length) upper →
      StandsAt ms parent i t.value → lineageAt built parent = some above →
      built.length = ms.length →
      ∃ built', built'.length = ms.length ∧ (∀ j < i, built'[j]? = built[j]?) ∧
        walk levels ms children (rounds + t.preorder.length) (i :: stack) built ordered =
          walk levels ms children rounds stack built' (ordered ++ (HierarchyDraft.buildTree level
            (levels.drop (above.length + 1)) above ordered.length t).1.preorder)
  | .node d ts, upper, above, level, i, parent, rounds, stack, built, ordered, hupper, hlevel,
      ⟨⟨hdepth, _, i', e', hi', he', hunder⟩, hts⟩, ⟨e, hi, he, hparent⟩, hlineage, hbuilt => by
    obtain ⟨hlt, -⟩ := List.getElem?_eq_some_iff.1 hi
    -- the entry of the node stands at one place, which is the one on top of the stack
    obtain rfl : i = i' := place_unique hw.distinct hi hi'
      (congrArg MemberDraft.uniqueName (he.trans he'.symm))
    obtain rfl : e = e' := Option.some.inj (hi.symm.trans hi')
    subst he'
    let self : MemberNode := ⟨e.name, e.uniqueName, level, e.kind, ordered.length⟩
    have hdown : List.Forall₂ (fun k t => StandsAt ms (some i) k t.value)
        (placesIn (some i) ms.zipIdx) ts := by
      rw [← List.forall₂_map_right_iff, hunder]
      exact standsAt_placesIn ms (some i)
    have hself : lineageAt (built.set i (some ⟨self, above⟩)) (some i) = some (self :: above) := by
      rw [lineageAt, List.getElem?_set_self (by omega)]
      rfl
    obtain ⟨built', hlength, hsame, hwalk⟩ := walk_forest ts (e.toMemberDraft :: upper) (self :: above)
      (placesIn (some i) ms.zipIdx) (some i) rounds stack (built.set i (some ⟨self, above⟩))
      (ordered ++ [⟨self, above⟩]) (congrArg (· + 1) hupper) hts hdown hself (by simpa using hbuilt)
    refine ⟨built', hlength, fun j hj => ?_, ?_⟩
    -- everything below the place stands behind it
    · rw [hsame j, List.getElem?_set_ne (Nat.ne_of_gt hj)]
      intro k hk
      obtain ⟨f, hf, hfi⟩ := getElem?_of_mem_placesIn hk
      exact Nat.lt_trans hj (hw.earlier k f i hf hfi)
    · have hcount : (Tree.node e.toMemberDraft ts).preorder.length =
          (Tree.preorderAll ts).length + 1 := by rw [Tree.preorder, List.length_cons]
      rw [hcount, ← Nat.add_assoc, walk, hi]
      have hlevel' : levels[e.depth]? = some level := by rw [hdepth, hupper, hlevel]
      have hlineage' : lineageAt built e.parent = some above := by rw [hparent, hlineage]
      simp only [hlevel', hlineage', hw.below i hlt, Option.bind_eq_bind, Option.bind_some]
      rw [hwalk, HierarchyDraft.buildTree, Tree.preorder, List.length_append, List.append_assoc]
      rfl

/-- The walk visits the trees of a forest one after the other, if their tops are on top of the stack. -/
theorem walk_forest : ∀ (ts : List (Tree MemberDraft)) (upper : List MemberDraft)
    (above : List MemberNode) (places : List Nat) (parent : Option Nat) (rounds : Nat)
    (stack : List Nat) (built : List (Option Member)) (ordered : List Member),
      upper.length = above.length → Tree.EachIn (Held ms levels.length) upper ts →
      List.Forall₂ (fun i t => StandsAt ms parent i t.value) places ts →
      lineageAt built parent = some above → built.length = ms.length →
      ∃ built', built'.length = ms.length ∧
        (∀ j, (∀ i ∈ places, j < i) → built'[j]? = built[j]?) ∧
        walk levels ms children (rounds + (Tree.preorderAll ts).length) (places ++ stack) built
            ordered =
          walk levels ms children rounds stack built' (ordered ++ Tree.preorderAll
            (HierarchyDraft.buildForest (levels.drop above.length) above ordered.length ts).1)
  | [], upper, above, places, parent, rounds, stack, built, ordered, _, _, hplaces, _, hbuilt => by
    cases hplaces
    exact ⟨built, hbuilt, fun _ _ => rfl, by simp [Tree.preorderAll, HierarchyDraft.buildForest]⟩
  | t :: ts, upper, above, places, parent, rounds, stack, built, ordered, hupper, ⟨ht, hts⟩, hplaces,
      hlineage, hbuilt => by
    obtain ⟨i, is, hi, his, rfl⟩ := List.forall₂_cons_right_iff.1 hplaces
    obtain ⟨d, us⟩ := t
    -- there is a level for the tops of the forest
    obtain ⟨hdepth, hfits, -⟩ := ht.1
    rw [hdepth, hupper] at hfits
    have hlevel := List.getElem?_eq_getElem hfits
    let tree := HierarchyDraft.buildTree levels[above.length] (levels.drop (above.length + 1)) above
      ordered.length (.node d us)
    obtain ⟨built₁, hlength₁, hsame₁, hwalk₁⟩ := walk_tree (.node d us) upper above
      levels[above.length] i parent (rounds + (Tree.preorderAll ts).length) (is ++ stack) built ordered
      hupper hlevel ht hi hlineage hbuilt
    -- the parent stands before the first top, and so is still finished after its subtree
    have hlineage₁ : lineageAt built₁ parent = some above := by
      cases parent with
      | none => exact hlineage
      | some p =>
        obtain ⟨e, he, -, hp⟩ := hi
        rw [lineageAt, hsame₁ p (hw.earlier i e p he hp)]
        exact hlineage
    obtain ⟨built₂, hlength₂, hsame₂, hwalk₂⟩ := walk_forest ts upper above is parent rounds stack built₁
      (ordered ++ tree.1.preorder) hupper hts his hlineage₁ hlength₁
    refine ⟨built₂, hlength₂, fun j hj => ?_, ?_⟩
    · obtain ⟨hji, hjis⟩ := List.forall_mem_cons.1 hj
      rw [hsame₂ j hjis, hsame₁ j hji]
    · have hcount : (Tree.preorderAll (.node d us :: ts)).length =
          (Tree.preorderAll ts).length + (Tree.node d us).preorder.length := by
        rw [Tree.preorderAll, List.length_append, Nat.add_comm]
      have hnext : tree.2 = (ordered ++ tree.1.preorder).length := by
        rw [(HierarchyDraft.ordinals_buildTree _ _ _ _ _).2, List.length_append]
      have hforest : Tree.preorderAll (HierarchyDraft.buildForest (levels.drop above.length) above
            ordered.length (.node d us :: ts)).1 =
          tree.1.preorder ++ Tree.preorderAll (HierarchyDraft.buildForest (levels.drop above.length)
            above (ordered ++ tree.1.preorder).length ts).1 := by
        rw [List.drop_eq_getElem_cons hfits, HierarchyDraft.buildForest, ← hnext]
        rfl
      rw [hcount, ← Nat.add_assoc, List.cons_append, hwalk₁, hwalk₂, hforest, List.append_assoc]

end

end

/-! ## Finished hierarchies -/

section
variable (hl : r.Lists h)
include hl

theorem Lists.childIndex : ∃ children,
    r.childIndex = some (children, placesIn none r.members.zipIdx) ∧ Walkable r.members children := by
  have hin : ∀ x ∈ r.members.zipIdx, ∀ p, x.1.parent = some p →
      p < (List.replicate r.members.length ([] : List Nat)).length := by
    intro x hx p hp
    have hx := List.mem_zipIdx_iff_getElem?.1 hx
    have := hl.earlier x.2 x.1 p hx hp
    have := (List.getElem?_eq_some_iff.1 hx).1
    rw [List.length_replicate]
    omega
  obtain ⟨children, hrun, hchildren⟩ := foldlM_note r.members.zipIdx _ [] hin
  refine ⟨children, hrun, hl.nodup, hl.earlier, fun i hi => ?_⟩
  rw [hchildren, List.getElem?_replicate, if_pos hi]
  rfl

theorem Lists.buildLevels (ordinal : Nat) : r.buildLevels ordinal = h.buildLevels ordinal := by
  rw [Roster.buildLevels, HierarchyDraft.buildLevels, hl.levels, hl.uniqueName, hl.hasAll]

/-- The walk over a roster gives the members of the forest, in one round for each of them; rounds to
spare make no difference. -/
theorem Lists.walk_eq {children : List (List Nat)} (hw : Walkable r.members children)
    (levels : List Level) (hlevels : levels.length = r.levels.length) (spare : Nat) :
    walk levels r.members children (spare + r.members.length) (placesIn none r.members.zipIdx)
        (List.replicate r.members.length none) [] =
      some (Tree.preorderAll (HierarchyDraft.buildForest levels [] 0 h.forest).1) := by
  have hcount : (Tree.preorderAll h.forest).length = r.members.length := by
    rw [show (Tree.preorderAll h.forest).length = _ from hl.members.length_eq, List.length_map]
  have htops : List.Forall₂ (fun i t => StandsAt r.members none i t.value)
      (placesIn none r.members.zipIdx) h.forest := by
    rw [← List.forall₂_map_right_iff, hl.tops]
    exact standsAt_placesIn r.members none
  obtain ⟨built, -, -, hwalk⟩ := walk_forest hw h.forest [] [] _ none spare []
    (List.replicate r.members.length none) [] rfl (hlevels ▸ hl.nodes) htops rfl List.length_replicate
  rw [hcount, List.append_nil, walk] at hwalk
  exact hwalk

/-- The walk finishes what the forest is finished to, and fails where there is nothing to finish. -/
theorem Lists.build (dimension : String) (kind : DimensionKind) (ordinal : Nat) :
    r.build dimension kind ordinal =
      some ((h.build dimension kind ordinal).map Hierarchy.listing) := by
  obtain ⟨children, hindex, hw⟩ := hl.childIndex
  have hwalk := hl.walk_eq hw (h.buildLevels ordinal)
    (by rw [HierarchyDraft.buildLevels, List.length_mapIdx, hl.levels]) 0
  have hroots : (Tree.preorderAll
      (HierarchyDraft.buildForest (h.buildLevels ordinal) [] 0 h.forest).1).filter
        (·.parent?.isNone) = _ :=
    (HierarchyDraft.buildForest_traces (h.buildLevels ordinal) [] 0 h.forest).filter_tops fun m _ => by
      rw [Option.isNone_iff_eq_none, Member.parent?_eq_none, Member.ofLineage]
  rw [Nat.zero_add] at hwalk
  rw [Roster.build, hindex, hl.buildLevels]
  simp only [Option.bind_eq_bind, Option.bind_some, hwalk, hroots]
  rw [HierarchyDraft.build, hl.name, hl.uniqueName, hl.hasAll]
  rcases (HierarchyDraft.buildForest (h.buildLevels ordinal) [] 0 h.forest).1 with _ | ⟨⟨m, us⟩, ts⟩
  · rfl
  · rfl

end

/-- A child that was added after its parent's sibling is visited before it. -/
example :
    let entry (name : String) (depth : Nat) (parent : Option Nat) : RosterEntry :=
      ⟨⟨name, name, .regular, depth⟩, parent⟩
    let r : Roster :=
      ⟨"H", "[H]", false, ["L", "M"], [entry "A" 0 none, entry "B" 0 none, entry "C" 1 (some 0)], []⟩
    (r.build "[D]" .standard 0).map (·.toOption.map (·.members.map (·.name))) =
      some (some ["A", "C", "B"]) := by
  decide

/-! ## Cubes -/

/-- The rosters that additions lead to. -/
inductive Grown : Roster → Prop
  | start {display uniqueName : String} {hasAll : Bool} {levels : List String} {r : Roster}
      (h : start display uniqueName hasAll levels = some (.ok r)) : Grown r
  | add {r r' : Roster} {a : Addition} (hr : Grown r) (h : r.add a = some (.ok r')) : Grown r'

/-- Some roster that additions lead to belongs to the draft. -/
def Kept (h : HierarchyDraft) : Prop := ∃ r : Roster, r.Grown ∧ r.Lists h ∧ r.Opened

theorem kept_start {display uniqueName : String} {hasAll : Bool} {levels : List String}
    (hs : HierarchyDraft.start display uniqueName hasAll levels = .ok h) : Kept h := by
  obtain ⟨r, hr, hl⟩ := (hs ▸ agree_start display uniqueName hasAll levels).of_ok
  exact ⟨r, .start hr, hl⟩

theorem Kept.add {h' : HierarchyDraft} {a : Addition} (hk : Kept h) (ha : h.add a = .ok h') :
    Kept h' := by
  obtain ⟨r, hr, hl, hopened⟩ := hk
  obtain ⟨r', hr', hl'⟩ := (ha ▸ hl.add hopened a).of_ok
  exact ⟨r', hr.add hr', hl'⟩

end Roster

namespace CubeBuilder

/-- Every hierarchy of a builder satisfies `P`. -/
def Throughout (P : HierarchyDraft → Prop) (b : CubeBuilder) : Prop :=
  ∀ d ∈ b.dimensions, ∀ h ∈ d.hierarchies, P h

variable {b b' : CubeBuilder} {P : HierarchyDraft → Prop}

theorem Throughout.updateHierarchy {name : String}
    {f : HierarchyDraft → Except CatalogError HierarchyDraft} (hb : b.Throughout P)
    (hf : ∀ h h', P h → f h = .ok h' → P h') (hu : b.updateHierarchy name f = .ok b') :
    b'.Throughout P := by
  obtain ⟨ds, hds, hu⟩ := bind_eq_ok.1 hu
  cases hu
  intro d' hd' h' hh'
  obtain ⟨d, hd, -, hchanged⟩ := exists_mem_of_forall₂ (updateFirstIn_forall₂ hds) d' hd'
  obtain ⟨h, hh, rfl | hfh⟩ := exists_mem_of_forall₂ hchanged h' hh'
  · exact hb d hd h' hh
  · exact hf h h' (hb d hd h hh) hfh

theorem Throughout.dimension (hb : b.Throughout P) (name : String) (kind : DimensionKind) :
    (b.dimension name kind).Throughout P := by
  unfold CubeBuilder.dimension
  split
  · exact hb
  · exact List.forall_mem_append.2 ⟨hb, List.forall_mem_singleton.2 (List.forall_mem_nil _)⟩

section
variable
  (hstart : ∀ display uniqueName hasAll levels h,
    HierarchyDraft.start display uniqueName hasAll levels = .ok h → P h)
include hstart

theorem Throughout.hierarchy (hb : b.Throughout P) {dimension : String} {name : Option String}
    {hasAll : Bool} {levels : List String} (h : b.hierarchy dimension name hasAll levels = .ok b') :
    b'.Throughout P := by
  obtain ⟨found, k, -, -, -, hk, rfl⟩ := hierarchy_eq_ok h
  intro d hd
  obtain ⟨e, he, rfl⟩ := List.mem_map.1 hd
  split
  · exact List.forall_mem_append.2 ⟨hb e he, List.forall_mem_singleton.2 (hstart _ _ _ _ k hk)⟩
  · exact hb e he

variable (hadd : ∀ h h' a, P h → h.add a = .ok h' → P h')
include hadd

theorem Throughout.take (hb : b.Throughout P) (step : BuildStep) : (b.take step).Throughout P := by
  unfold CubeBuilder.take
  dsimp only
  split
  · rename_i h
    cases step with
    | dimension name kind =>
      cases h
      exact hb.dimension name kind
    | hierarchy dimension name hasAll levels => exact hb.hierarchy hstart h
    | member hierarchy parent name =>
      exact hb.updateHierarchy (fun k k' hk hadded => hadd k k' (.member parent name) hk hadded) h
    | measure name =>
      obtain ⟨c, hc, hu⟩ := measure_eq_ok h
      refine Throughout.updateHierarchy ?_ (fun k k' hk hadded => hadd k k' (.measure name) hk hadded) hu
      rcases hc with rfl | hc
      · exact hb
      · exact (hb.dimension "Measures" .measures).hierarchy hstart hc
  · exact hb

/-- What holds of a hierarchy from the start, and still does when a member has been added, holds of all
hierarchies after any steps. -/
theorem throughout_foldl (hb : b.Throughout P) (steps : List BuildStep) :
    (steps.foldl CubeBuilder.take b).Throughout P := by
  induction steps generalizing b with
  | nil => exact hb
  | cons step steps ih => exact ih (hb.take hstart hadd step)

end

end CubeBuilder

/-- The hierarchies of a cube that has been built are those that walks over rosters give. -/
theorem Cube.Built.exists_roster {c : Cube} (hc : c.Built) {h : Hierarchy} (hh : h ∈ c.hierarchies) :
    ∃ r : Roster, r.Grown ∧ r.build h.dimension h.kind h.ordinal = some (.ok h.listing) := by
  obtain ⟨name, steps, hb⟩ := hc
  have hkept : (steps.foldl CubeBuilder.take (.empty name)).Throughout Roster.Kept :=
    CubeBuilder.throughout_foldl (fun _ _ _ _ _ hs => Roster.kept_start hs)
      (fun _ _ _ hk ha => hk.add ha) (b := .empty name) (List.forall_mem_nil _) steps
  obtain ⟨dimension, hdimension, hh⟩ := List.mem_flatMap.1 hh
  obtain ⟨draft, hdraft, first, hbuild⟩ :=
    exists_mem_of_forall₂ (CubeBuilder.build_forall₂ hb) dimension hdimension
  obtain ⟨-, -, hhierarchies⟩ := DimensionDraft.build_ok hbuild
  obtain ⟨d, hd, ordinal, hk⟩ := exists_mem_of_forall₂ hhierarchies h hh
  obtain ⟨r, hr, hl, -⟩ := hkept draft hdraft d hd
  refine ⟨r, hr, ?_⟩
  have hwhere : h.dimension = draft.uniqueName ∧ h.kind = draft.kind ∧ h.ordinal = ordinal := by
    unfold HierarchyDraft.build at hk
    dsimp only at hk
    split at hk
    · cases hk
      exact ⟨rfl, rfl, rfl⟩
    · cases hk
  obtain ⟨hdim, hkind, hordinal⟩ := hwhere
  rw [hl.build, hdim, hkind, hordinal, hk]
  rfl

/-- A part of a list without repetitions can be picked out by what its elements are. -/
theorem filter_eq_of_sublist {α : Type} {l part : List α} {q : α → Bool} (hnodup : l.Nodup)
    (hpart : part.Sublist l) (hq : ∀ x ∈ l, q x = true ↔ x ∈ part) : l.filter q = part := by
  have hsame : part.filter q = part :=
    List.filter_eq_self.2 fun x hx => (hq x (hpart.subset hx)).2 hx
  have hsublist : part.Sublist (l.filter q) := hsame ▸ hpart.filter q
  have hsubset : l.filter q ⊆ part := by
    intro x hx
    obtain ⟨hx, hqx⟩ := List.mem_filter.1 hx
    exact (hq x hx).1 hqx
  have hlength := (List.subperm_of_subset (hnodup.filter q) hsubset).length_le
  exact (hsublist.eq_of_length_le hlength).symm

/-- The members just below a member can be told by their parents alone. -/
theorem Cube.Built.children_listing {c : Cube} (hc : c.Built) {h : Hierarchy} (hh : h ∈ c.hierarchies)
    {m : Member} (hm : m ∈ h.members) : h.listing.children m = h.children m := by
  obtain ⟨log, hnodes⟩ := hc.exists_placed hh
  have hregular := hc.regular.hierarchy h hh
  have hsublist : (h.children m).Sublist h.members := by
    obtain ⟨t, before, after, ht, -, hsplit, -⟩ := Hierarchy.exists_block hnodes hregular hm
    obtain ⟨v, ts⟩ := t
    have hbelow : (Tree.preorderAll ts).Sublist h.members := by
      rw [hsplit, Tree.preorder]
      exact (List.sublist_append_of_sublist_right (List.sublist_cons_self v _)).trans
        (List.sublist_append_left _ after)
    rw [Hierarchy.children, ht]
    exact (Tree.map_value_sublist ts).trans hbelow
  refine filter_eq_of_sublist hregular.names.of_map hsublist fun n hn => ?_
  rw [Hierarchy.mem_children_iff hnodes hregular hm, Option.any_eq_true]
  constructor
  · rintro ⟨p, hp, hname⟩
    rw [hp, List.inj_on_of_nodup_map hregular.names (hregular.parent_mem hn hp) hm (eq_of_beq hname)]
    exact ⟨hn, rfl⟩
  · rintro ⟨-, hp⟩
    exact ⟨m, hp, beq_self_eq_true m.uniqueName⟩

end Olap
