import Olap.Proofs.Catalog.Preorder

/-!
# The "all" member

A hierarchy with an "all" level starts with the "all" member, and a member that is added without a
parent is put below it. A measure is not: it becomes a root, whatever levels its hierarchy has. So in a
cube that has been built the roots of such a hierarchy are the "all" member and the measures, and it has
a single root as long as it has no measures (`CubeBuilder.build_roots`).
-/

set_option autoImplicit false

namespace Olap

/-! ## Tops and what is below them -/

namespace Tree

variable {α : Type} {P : α → Prop}

theorem preorder_eq (t : Tree α) : t.preorder = t.value :: preorderAll t.children := by
  cases t
  rw [preorder, value, children]

theorem mem_preorderAll_iff {ts : List (Tree α)} {v : α} :
    v ∈ preorderAll ts ↔ v ∈ ts.map value ∨ ∃ t ∈ ts, v ∈ preorderAll t.children := by
  induction ts with
  | nil => simp [preorderAll]
  | cons t ts ih =>
    rw [preorderAll, List.mem_append, preorder_eq, List.mem_cons, ih, List.map_cons, List.mem_cons,
      List.exists_mem_cons_iff]
    tauto

/-- A leaf that is put under some nodes is below the tops, and nothing else is added there. -/
theorem forall_below_insertUnderAll {p : α → Bool} {v : α} (hv : P v) {ts : List (Tree α)}
    (h : ∀ t ∈ ts, ∀ u ∈ preorderAll t.children, P u) :
    ∀ t ∈ insertUnderAll p v ts, ∀ u ∈ preorderAll t.children, P u := by
  induction ts with
  | nil => exact List.forall_mem_nil _
  | cons t ts ih =>
    obtain ⟨ht, hts⟩ := List.forall_mem_cons.1 h
    obtain ⟨w, us⟩ := t
    rw [insertUnderAll, insertUnder]
    refine List.forall_mem_cons.2 ⟨?_, ih hts⟩
    split
    · rw [children, preorderAll_append]
      refine List.forall_mem_append.2 ⟨ht, ?_⟩
      simpa [leaf, preorderAll, preorder] using hv
    · obtain ⟨n, -, -, hperm⟩ := insertUnderAll_perm p v us
      intro u hu
      rcases List.mem_append.1 (hperm.mem_iff.1 hu) with hnew | hold
      · rw [List.eq_of_mem_replicate hnew]
        exact hv
      · exact ht u hold

end Tree

/-! ## Kinds of members in a draft -/

namespace HierarchyDraft

/-- The members without a parent. -/
def tops (h : HierarchyDraft) : List MemberDraft := h.forest.map Tree.value

/-- Where the members of each kind stand while a hierarchy is assembled, after given steps. -/
structure Kinds (steps : List BuildStep) (h : HierarchyDraft) : Prop where
  below : ∀ t ∈ h.forest, ∀ d ∈ Tree.preorderAll t.children, d.kind = .regular
  top : h.hasAll = true → ∃ a ds, h.tops = a :: ds ∧ a.kind = .all ∧ ∀ d ∈ ds, d.kind = .measure
  measures : ∀ d ∈ h.tops, d.kind = .measure →
    h.uniqueName = "[Measures]" ∧ .measure d.name ∈ steps

variable {steps : List BuildStep} {h h' : HierarchyDraft} {name : String}

theorem Kinds.mono (hk : h.Kinds steps) {more : List BuildStep} (hsub : steps ⊆ more) :
    h.Kinds more :=
  ⟨hk.below, hk.top, fun d hd hm => (hk.measures d hd hm).imp_right fun hmem => hsub hmem⟩

/-- A new top has nothing below it. -/
theorem Kinds.below_top (hk : h.Kinds steps) (d : MemberDraft) :
    ∀ t ∈ h.forest ++ [Tree.leaf d], ∀ u ∈ Tree.preorderAll t.children, u.kind = .regular := by
  refine List.forall_mem_append.2 ⟨hk.below, List.forall_mem_singleton.2 ?_⟩
  exact List.forall_mem_nil _

theorem tops_append_leaf (h : HierarchyDraft) (d : MemberDraft) :
    tops { h with forest := h.forest ++ [Tree.leaf d] } = h.tops ++ [d] := by
  simp [tops, Tree.leaf]

/-- A member that is not a measure is put below another one, in a hierarchy with an "all" level. -/
theorem Kinds.member (hk : h.Kinds steps) {parent : Option String} {o : Option MemberDraft}
    (ho : h.parentFor parent = .ok o) (ha : h.addMember o name .regular = .ok h') :
    h'.Kinds steps := by
  obtain ⟨-, -, rfl⟩ := addMember_ok ha
  rcases o with _ | p
  · -- the "all" member would have been the parent
    have hnot : h.hasAll ≠ true := by
      intro hall
      obtain ⟨a, ds, htops, -⟩ := hk.top hall
      have hforest : h.forest ≠ [] := fun hnil => by simp [tops, hnil] at htops
      obtain ⟨t, ts, hts⟩ := List.exists_cons_of_ne_nil hforest
      have hhead : h.members.head? = some t.value := by
        rw [members, hts, Tree.preorderAll, Tree.preorder_eq]
        rfl
      cases parent with
      | none => simp [parentFor, hall, hhead] at ho
      | some p =>
        rw [parentFor] at ho
        split at ho <;> simp at ho
    refine ⟨hk.below_top _, fun hall => absurd hall hnot, ?_⟩
    rw [grown, tops_append_leaf]
    refine List.forall_mem_append.2 ⟨hk.measures, List.forall_mem_singleton.2 fun hkind => ?_⟩
    cases hkind
  · have htops : tops { h with forest := h.grown (h.draft (some p) name .regular) (some p) } =
        h.tops := Tree.map_value_insertUnderAll _ _ h.forest
    refine ⟨?_, ?_, ?_⟩
    · exact Tree.forall_below_insertUnderAll (P := fun d : MemberDraft => d.kind = .regular) rfl
        hk.below
    · rw [htops]
      exact hk.top
    · rw [htops]
      exact hk.measures

/-- A measure becomes the last root. -/
theorem Kinds.measure (hk : h.Kinds steps) (hname : h.uniqueName = "[Measures]")
    (hstep : .measure name ∈ steps) (ha : h.addMember none name .measure = .ok h') :
    h'.Kinds steps := by
  obtain ⟨-, -, rfl⟩ := addMember_ok ha
  refine ⟨hk.below_top _, ?_, ?_⟩
  · intro hall
    obtain ⟨a, ds, htops, ha, hds⟩ := hk.top hall
    refine ⟨a, ds ++ [h.draft none name .measure], ?_, ha,
      List.forall_mem_append.2 ⟨hds, List.forall_mem_singleton.2 rfl⟩⟩
    rw [grown, tops_append_leaf, htops]
    rfl
  · rw [grown, tops_append_leaf]
    exact List.forall_mem_append.2
      ⟨hk.measures, List.forall_mem_singleton.2 fun _ => ⟨hname, hstep⟩⟩

theorem kinds_start {display uniqueName : String} {hasAll : Bool} {levels : List String}
    (hs : start display uniqueName hasAll levels = .ok h) : h.Kinds steps := by
  cases hasAll with
  | false =>
    cases hs
    exact ⟨List.forall_mem_nil _, fun hall => absurd hall Bool.false_ne_true, List.forall_mem_nil _⟩
  | true =>
    rw [start, if_pos rfl] at hs
    obtain ⟨-, -, rfl⟩ := addMember_ok hs
    refine ⟨List.forall_mem_singleton.2 (List.forall_mem_nil _), fun _ => ?_,
      List.forall_mem_singleton.2 fun hkind => ?_⟩
    · exact ⟨_, [], rfl, rfl, List.forall_mem_nil _⟩
    · cases hkind

end HierarchyDraft

/-! ## Kinds of members in a builder -/

namespace CubeBuilder

/-- In every hierarchy the members of each kind stand where they should, after given steps. -/
def Kinds (steps : List BuildStep) (b : CubeBuilder) : Prop := ∀ x ∈ b.placed, x.2.Kinds steps

variable {steps : List BuildStep} {b b' : CubeBuilder}

theorem Kinds.update (hk : b.Kinds steps) {name : String}
    {f : HierarchyDraft → Except CatalogError HierarchyDraft}
    (hf : ∀ h h', h.Kinds steps → h.uniqueName = name → f h = .ok h' → h'.Kinds steps)
    (hu : b.updateHierarchy name f = .ok b') : b'.Kinds steps := by
  obtain ⟨before, d, h, h', after, hb, hb', -, hname, hh⟩ := updateHierarchy_ok hu
  unfold Kinds at hk ⊢
  rw [hb] at hk
  rw [hb']
  obtain ⟨hbefore, hrest⟩ := List.forall_mem_append.1 hk
  obtain ⟨hh', hafter⟩ := List.forall_mem_cons.1 hrest
  exact List.forall_mem_append.2 ⟨hbefore, List.forall_mem_cons.2 ⟨hf h h' hh' hname hh, hafter⟩⟩

theorem Kinds.dimension (hk : b.Kinds steps) (name : String) (kind : DimensionKind) :
    (b.dimension name kind).Kinds steps := by
  unfold Kinds
  rw [placed_dimension]
  exact hk

theorem Kinds.hierarchy (hk : b.Kinds steps) (hb : b.Proper) {dimension : String}
    {name : Option String} {hasAll : Bool} {levels : List String}
    (h : b.hierarchy dimension name hasAll levels = .ok b') : b'.Kinds steps := by
  obtain ⟨k, hs, -, hplaced⟩ := hierarchy_ok hb h
  intro x hx
  rcases (hplaced x).1 hx with hx | rfl
  · exact hk x hx
  · exact HierarchyDraft.kinds_start hs

theorem Kinds.measure (hk : b.Kinds steps) (hb : b.Proper) {name : String}
    (hstep : .measure name ∈ steps) (h : b.measure name = .ok b') : b'.Kinds steps := by
  have hupdate {c : CubeBuilder} (hc : c.Kinds steps)
      (hu : c.updateHierarchy "[Measures]" (·.addMember none name .measure) = .ok b') :
      b'.Kinds steps :=
    hc.update (fun _ _ hh hname ha => hh.measure hname hstep ha) hu
  obtain ⟨c, rfl | hc, hu⟩ := measure_eq_ok h
  · exact hupdate hk hu
  · exact hupdate ((hk.dimension _ _).hierarchy (hb.dimension _ _) hc) hu

theorem Kinds.take (hk : b.Kinds steps) (hb : b.Proper) {step : BuildStep} (hstep : step ∈ steps) :
    (b.take step).Kinds steps := by
  unfold CubeBuilder.take
  dsimp only
  split
  · rename_i h
    cases step with
    | dimension name kind =>
      cases h
      exact hk.dimension name kind
    | hierarchy dimension name hasAll levels => exact hk.hierarchy hb h
    | member hierarchy parent name =>
      refine hk.update (fun k k' hkinds _ ha => ?_) h
      obtain ⟨p, hp, ha⟩ := bind_eq_ok.1 ha
      exact hkinds.member hp ha
    | measure name => exact hk.measure hb hstep h
  · exact hk

theorem kinds_foldl {all : List BuildStep} (hk : b.Kinds all) (hb : b.Proper)
    {steps : List BuildStep} (hsub : steps ⊆ all) : (steps.foldl CubeBuilder.take b).Kinds all := by
  induction steps generalizing b with
  | nil => exact hk
  | cons step steps ih =>
    obtain ⟨hstep, hsub⟩ := List.cons_subset.1 hsub
    exact ih (hk.take hb hstep) (hb.take step) hsub

end CubeBuilder

/-! ## Finished hierarchies -/

namespace HierarchyDraft

mutual

/-- The kinds of members in a finished tree are those of its draft. -/
theorem kind_mem_buildTree (level : Level) (below : List Level) (above : List MemberNode)
    (next : Nat) : ∀ t : Tree MemberDraft, ∀ m ∈ (buildTree level below above next t).1.preorder,
      m.kind ∈ t.preorder.map (·.kind)
  | .node d ts => by
    intro m hm
    rw [buildTree, Tree.preorder] at hm
    rw [Tree.preorder, List.map_cons]
    rcases List.mem_cons.1 hm with rfl | hm
    · exact List.mem_cons_self
    · exact List.mem_cons_of_mem _ (kind_mem_buildForest below _ _ ts m hm)

theorem kind_mem_buildForest (levels : List Level) (above : List MemberNode) (next : Nat) :
    ∀ ts : List (Tree MemberDraft), ∀ m ∈ Tree.preorderAll (buildForest levels above next ts).1,
      m.kind ∈ (Tree.preorderAll ts).map (·.kind)
  | [] => by simp [buildForest, Tree.preorderAll]
  | t :: ts => by
    intro m hm
    rw [Tree.preorderAll, List.map_append]
    rcases levels with _ | ⟨level, below⟩
    · simp [buildForest, Tree.preorderAll] at hm
    · rw [buildForest, Tree.preorderAll] at hm
      rcases List.mem_append.1 hm with hm | hm
      · exact List.mem_append_left _ (kind_mem_buildTree level below above next t m hm)
      · exact List.mem_append_right _ (kind_mem_buildForest (level :: below) above _ ts m hm)

end

/-- A finished tree stands for one of a draft: its top has the name and the kind, and below it are no
other kinds. -/
def Finishes (t : Tree MemberDraft) (u : Tree Member) : Prop :=
  u.value.name = t.value.name ∧ u.value.kind = t.value.kind ∧
    ∀ m ∈ Tree.preorderAll u.children, m.kind ∈ (Tree.preorderAll t.children).map (·.kind)

theorem finishes_buildForest (level : Level) (below : List Level) (above : List MemberNode)
    (next : Nat) (ts : List (Tree MemberDraft)) :
    List.Forall₂ Finishes ts (buildForest (level :: below) above next ts).1 := by
  induction ts generalizing next with
  | nil =>
    rw [buildForest]
    exact .nil
  | cons t ts ih =>
    obtain ⟨d, us⟩ := t
    rw [buildForest]
    refine .cons ⟨?_, ?_, ?_⟩ (ih _)
    · rw [buildTree]
      rfl
    · rw [buildTree]
      rfl
    · rw [buildTree]
      exact kind_mem_buildForest below _ _ us

end HierarchyDraft

namespace Hierarchy

/-- Where the members of each kind stand in a hierarchy that is finished after given steps. -/
structure Kinds (steps : List BuildStep) (h : Hierarchy) : Prop where
  below : ∀ m ∈ h.members, m ∈ h.roots ∨ m.kind = .regular
  top : h.hasAll = true → ∃ ms, h.roots = h.defaultMember :: ms ∧ h.defaultMember.kind = .all ∧
    ∀ m ∈ ms, m.kind = .measure
  measures : ∀ m ∈ h.roots, m.kind = .measure →
    h.uniqueName = "[Measures]" ∧ .measure m.name ∈ steps

theorem roots_eq_cons (h : Hierarchy) : ∃ ms, h.roots = h.defaultMember :: ms := by
  obtain ⟨t, ts, hts⟩ := List.exists_cons_of_ne_nil h.forest_ne_nil
  exact ⟨ts.map Tree.value, by simp [roots, defaultMember, hts]⟩

theorem members_eq_cons (h : Hierarchy) : ∃ ms, h.members = h.defaultMember :: ms := by
  obtain ⟨t, ts, hts⟩ := List.exists_cons_of_ne_nil h.forest_ne_nil
  refine ⟨Tree.preorderAll t.children ++ Tree.preorderAll ts, ?_⟩
  simp [members, defaultMember, hts, Tree.preorderAll, Tree.preorder_eq]

end Hierarchy

theorem HierarchyDraft.Kinds.build {steps : List BuildStep} {d : HierarchyDraft}
    (hk : d.Kinds steps) {dimension : String} {kind : DimensionKind} {ordinal : Nat} {h : Hierarchy}
    (hb : d.build dimension kind ordinal = .ok h) : h.Kinds steps := by
  have hforest : List.Forall₂ Finishes d.forest h.forest ∧ h.hasAll = d.hasAll ∧
      h.uniqueName = d.uniqueName := by
    unfold HierarchyDraft.build at hb
    dsimp only at hb
    split at hb
    · rename_i hne
      cases hb
      refine ⟨?_, rfl, rfl⟩
      -- without levels there would be no members
      obtain ⟨level, below, hlevels⟩ : ∃ level below, d.buildLevels ordinal = level :: below := by
        refine List.exists_cons_of_ne_nil fun hnil => ?_
        rw [hnil] at hne
        cases hd : d.forest <;> simp [hd, buildForest] at hne
      have hfinishes := finishes_buildForest level below [] 0 d.forest
      rw [← hlevels] at hfinishes
      exact hfinishes
    · cases hb
  obtain ⟨hforest, hall, hname⟩ := hforest
  have hroot : ∀ m ∈ h.roots, ∃ d' ∈ d.tops, m.name = d'.name ∧ m.kind = d'.kind := by
    refine List.forall_mem_map.2 fun u hu => ?_
    obtain ⟨t, ht, hname, hkind, -⟩ := exists_mem_of_forall₂ hforest u hu
    exact ⟨t.value, List.mem_map_of_mem ht, hname, hkind⟩
  constructor
  · intro m hm
    refine (Tree.mem_preorderAll_iff.1 hm).imp_right ?_
    rintro ⟨u, hu, hmu⟩
    obtain ⟨t, ht, -, -, hbelow⟩ := exists_mem_of_forall₂ hforest u hu
    obtain ⟨d', hd', hkind⟩ := List.mem_map.1 (hbelow m hmu)
    rw [← hkind]
    exact hk.below t ht d' hd'
  · intro hall'
    obtain ⟨a, ds, htops, ha, hds⟩ := hk.top (hall ▸ hall')
    obtain ⟨ms, hms⟩ := h.roots_eq_cons
    have hkinds : h.roots.map (·.kind) = d.tops.map (·.kind) := by
      rw [Hierarchy.roots, tops, List.map_map, List.map_map]
      exact map_eq_of_forall₂ hforest fun _ _ _ hfinishes => hfinishes.2.1
    rw [hms, htops, List.map_cons, List.map_cons, List.cons.injEq] at hkinds
    refine ⟨ms, hms, hkinds.1.trans ha, fun m hm => ?_⟩
    have hmem : m.kind ∈ ms.map (·.kind) := List.mem_map_of_mem hm
    rw [hkinds.2] at hmem
    obtain ⟨d', hd', hkind⟩ := List.mem_map.1 hmem
    rw [← hkind]
    exact hds d' hd'
  · intro m hm hmeasure
    obtain ⟨d', hd', hname', hkind⟩ := hroot m hm
    rw [hname, hname']
    exact hk.measures d' hd' (hkind ▸ hmeasure)

/-! ## Roots -/

namespace Hierarchy

/-- The hierarchy has a single root, the "all" member, which is also the default member. -/
structure SingleRooted (h : Hierarchy) : Prop where
  root : h.members.filter (·.depth == 0) = [h.defaultMember]
  all : h.members.filter (·.isAll) = [h.defaultMember]
  above : ∀ m ∈ h.members, m = h.defaultMember ∨ m.ancestors.getLast? = some h.defaultMember

end Hierarchy

/-- The last of a member's ancestors has none itself. -/
theorem Member.parent?_of_getLast? {m r : Member} (hr : m.ancestors.getLast? = some r) :
    r.parent? = none := by
  obtain ⟨node, lineage⟩ := m
  rw [ancestors] at hr
  dsimp only at hr
  induction lineage with
  | nil => simp [ofLineage] at hr
  | cons p above ih =>
    cases above with
    | nil =>
      cases hr
      rfl
    | cons q above =>
      rw [ofLineage, ofLineage, List.getLast?_cons_cons] at hr
      exact ih hr

namespace Hierarchy

variable {h : Hierarchy} {log : List Accepted} (ha : h.Arranged log)
include ha

theorem Arranged.depth_eq_zero_iff {m : Member} (hm : m ∈ h.members) :
    m.depth = 0 ↔ m ∈ h.roots := by
  rw [ha.roots, ha.depth m hm]
  cases m.parent? <;> simp [hm]

/-- Every member is a root, or the last of its ancestors is one. -/
theorem Arranged.root_above (hregular : h.Regular) {m : Member} (hm : m ∈ h.members) :
    m.depth = 0 ∨ ∃ r ∈ h.members, r.depth = 0 ∧ m.ancestors.getLast? = some r := by
  rcases hlast : m.ancestors.getLast? with _ | r
  · left
    rw [List.getLast?_eq_none_iff, ← Member.parent?_eq_none] at hlast
    rw [ha.depth m hm, hlast]
    rfl
  · have hr : r ∈ h.members := hregular.ancestors m hm r (List.mem_of_getLast? hlast)
    refine .inr ⟨r, hr, ?_, rfl⟩
    rw [ha.depth r hr, Member.parent?_of_getLast? hlast]
    rfl

section
variable {steps : List BuildStep} (hk : h.Kinds steps) (hall : h.hasAll = true)
include hk hall

/-- The default member is met once. The roots among the others are the measures, and no other member is
of the kind of the "all" member. -/
theorem Kinds.exists_others : h.defaultMember.kind = .all ∧ h.defaultMember.depth = 0 ∧
    ∃ others, h.members = h.defaultMember :: others ∧
      ∀ m ∈ others, m.isAll = false ∧ (m.depth == 0) = m.isMeasure := by
  obtain ⟨ms, hroots, htop, hms⟩ := hk.top hall
  obtain ⟨others, hmembers⟩ := h.members_eq_cons
  have hsub : h.defaultMember :: others ⊆ h.members := hmembers ▸ List.Subset.refl _
  obtain ⟨hself, hsub⟩ := List.cons_subset.1 hsub
  refine ⟨htop, ?_, others, hmembers, fun m hm => ?_⟩
  · rw [ha.depth_eq_zero_iff hself, hroots]
    exact List.mem_cons_self
  · have hne : m ≠ h.defaultMember := by
      rintro rfl
      have hdistinct := ha.distinct
      rw [hmembers, List.map_cons, List.nodup_cons] at hdistinct
      exact hdistinct.1 (List.mem_map_of_mem hm)
    by_cases hroot : m ∈ h.roots
    · have hdepth : m.depth = 0 := (ha.depth_eq_zero_iff (hsub hm)).2 hroot
      rw [hroots] at hroot
      have hmeasure := hms m ((List.mem_cons.1 hroot).resolve_left hne)
      simp [Member.isAll, Member.isMeasure, hmeasure, hdepth]
    · have hdepth : m.depth ≠ 0 := fun h0 => hroot ((ha.depth_eq_zero_iff (hsub hm)).1 h0)
      have hregular := (hk.below m (hsub hm)).resolve_left hroot
      simp [Member.isAll, Member.isMeasure, hregular, hdepth]

theorem Kinds.filter_isAll : h.members.filter (·.isAll) = [h.defaultMember] := by
  obtain ⟨htop, -, others, hmembers, hothers⟩ := hk.exists_others ha hall
  rw [hmembers, List.filter_cons_of_pos (by simp [Member.isAll, htop]),
    List.filter_eq_nil_iff.2 fun m hm => by simp [(hothers m hm).1]]

theorem Kinds.filter_depth : h.members.filter (·.depth == 0) =
    h.defaultMember :: h.members.filter (·.isMeasure) := by
  obtain ⟨htop, hdepth, others, hmembers, hothers⟩ := hk.exists_others ha hall
  rw [hmembers, List.filter_cons_of_pos (by simp [hdepth]),
    List.filter_cons_of_neg (by simp [Member.isMeasure, htop]),
    List.filter_congr fun m hm => (hothers m hm).2]

/-- Measures are what a single root excludes. -/
theorem Kinds.singleRooted_iff (hregular : h.Regular) :
    h.SingleRooted ↔ ∀ m ∈ h.members, m.isMeasure = false := by
  have hroots := hk.filter_depth ha hall
  constructor
  · rintro ⟨hroot, -, -⟩
    rw [hroots, List.cons.injEq, List.filter_eq_nil_iff] at hroot
    simpa using hroot.2
  · intro hnone
    have hmeasures : h.members.filter (·.isMeasure) = [] :=
      List.filter_eq_nil_iff.2 fun m hm => by simp [hnone m hm]
    rw [hmeasures] at hroots
    have honly : ∀ m ∈ h.members, m.depth = 0 → m = h.defaultMember := by
      intro m hm hdepth
      have hmem : m ∈ h.members.filter (·.depth == 0) := List.mem_filter.2 ⟨hm, by simp [hdepth]⟩
      rw [hroots] at hmem
      exact List.mem_singleton.1 hmem
    refine ⟨hroots, hk.filter_isAll ha hall, fun m hm => ?_⟩
    refine (ha.root_above hregular hm).imp (honly m hm) ?_
    rintro ⟨r, hr, hdepth, hlast⟩
    rw [hlast, honly r hr hdepth]

end

end Hierarchy

theorem CubeBuilder.build_kinds {name : String} {steps : List BuildStep} {c : Cube}
    (hb : (steps.foldl CubeBuilder.take (.empty name)).build = .ok c) {h : Hierarchy}
    (hh : h ∈ c.hierarchies) : h.Kinds steps := by
  have hkinds := CubeBuilder.kinds_foldl (b := .empty name) (List.forall_mem_nil _)
    (CubeBuilder.proper_empty name) (List.Subset.refl steps)
  obtain ⟨dimension, hdimension, hh⟩ := List.mem_flatMap.1 hh
  obtain ⟨draft, hdraft, first, hbuild⟩ :=
    exists_mem_of_forall₂ (CubeBuilder.build_forall₂ hb) dimension hdimension
  obtain ⟨-, -, hhierarchies⟩ := DimensionDraft.build_ok hbuild
  obtain ⟨d, hd, ordinal, hk⟩ := exists_mem_of_forall₂ hhierarchies h hh
  exact (hkinds (draft.name, d) (List.mem_flatMap.2 ⟨draft, hdraft, List.mem_map_of_mem hd⟩)).build hk

/-- In a hierarchy with an "all" level the "all" member is the default member, and the only member of
its kind. It is one of the roots, the others are the measures; so the hierarchy has a single root if and
only if it has no measures. Only the hierarchy of measures can have any, and each was added by a step. -/
theorem CubeBuilder.build_roots {name : String} {steps : List BuildStep} {c : Cube}
    (hb : (steps.foldl CubeBuilder.take (.empty name)).build = .ok c) {h : Hierarchy}
    (hh : h ∈ c.hierarchies) (hall : h.hasAll = true) :
    h.members.filter (·.isAll) = [h.defaultMember] ∧
      h.members.filter (·.depth == 0) = h.defaultMember :: h.members.filter (·.isMeasure) ∧
      (∀ m ∈ h.members, m.depth = 0 ∨
        ∃ r ∈ h.members, r.depth = 0 ∧ m.ancestors.getLast? = some r) ∧
      (∀ m ∈ h.members, m.isMeasure = true →
        h.uniqueName = "[Measures]" ∧ .measure m.name ∈ steps) ∧
      (h.SingleRooted ↔ ∀ m ∈ h.members, m.isMeasure = false) := by
  have hkinds := CubeBuilder.build_kinds hb hh
  have harranged := CubeBuilder.build_arranged hb hh
  have hregular : h.Regular := (Cube.Built.regular ⟨name, steps, hb⟩).hierarchy h hh
  refine ⟨hkinds.filter_isAll harranged hall, hkinds.filter_depth harranged hall,
    fun m hm => harranged.root_above hregular hm, fun m hm hmeasure => ?_,
    hkinds.singleRooted_iff harranged hall hregular⟩
  have hmeasure : m.kind = .measure := by simpa [Member.isMeasure] using hmeasure
  exact hkinds.measures m ((hkinds.below m hm).resolve_right (by simp [hmeasure])) hmeasure

namespace Sample

/-- Measures in a hierarchy with an "all" level. -/
def totalledSteps : List BuildStep :=
  [.dimension "Measures" .measures, .hierarchy "Measures" none true ["Measure"], .measure "Sales"]

/-- The measure stands beside the "all" member, and not below it. -/
theorem build_roots_totalled : ∃ c h,
    (totalledSteps.foldl CubeBuilder.take (.empty "Sales")).build = .ok c ∧ h ∈ c.hierarchies ∧
      h.hasAll = true ∧ h.members.map (·.name) = ["All Measuress", "Sales"] ∧
      h.members.map (·.depth) = [0, 0] ∧ ¬ h.SingleRooted := by
  have hruns : (totalledSteps.foldl CubeBuilder.take (.empty "Sales")).build.toOption.map (fun c =>
      c.hierarchies.head?.map fun h => (h.hasAll, h.members.map (·.name), h.members.map (·.depth),
        h.members.all fun m => !m.isMeasure)) =
      some (some (true, ["All Measuress", "Sales"], [0, 0], false)) := by
    decide +kernel
  obtain ⟨c, hc, hfirst⟩ := exists_ok_of_map hruns
  obtain ⟨h, hh, hfacts⟩ := Option.map_eq_some_iff.1 hfirst
  simp only [Prod.mk.injEq] at hfacts
  obtain ⟨hall, hnames, hdepths, hmeasures⟩ := hfacts
  have hmem := List.mem_of_head? hh
  refine ⟨c, h, hc, hmem, hall, hnames, hdepths, fun hsingle => ?_⟩
  obtain ⟨-, -, -, -, hiff⟩ := CubeBuilder.build_roots hc hmem hall
  have hnone := hiff.1 hsingle
  rw [List.all_eq_false] at hmeasures
  obtain ⟨m, hm, hmeasure⟩ := hmeasures
  simp [hnone m hm] at hmeasure

end Sample

end Olap
