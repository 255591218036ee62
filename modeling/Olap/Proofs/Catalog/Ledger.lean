import Olap.Proofs.Catalog.Nodes

/-!
# The members that a builder has accepted

`CubeBuilder.ledger` lists the members that the steps of an assembly add, in the order of the steps: to
which hierarchy, below what, and under which name. A hierarchy that is being assembled has these members
and no others, each below the one that the ledger names (`CubeBuilder.tallies_ledger`).
-/

set_option autoImplicit false

namespace Olap

/-- A member that a builder has accepted. -/
structure Accepted where
  /-- The name of the dimension. -/
  dimension : String
  /-- The unique name of the hierarchy. -/
  hierarchy : String
  /-- The unique name of the member that it was put below. -/
  parent : Option String
  name : String
  uniqueName : String
  deriving DecidableEq, Repr

namespace Accepted

def label (e : Accepted) : String × String := (e.name, e.uniqueName)

def isIn (dimension hierarchy : String) (e : Accepted) : Bool :=
  e.dimension == dimension && e.hierarchy == hierarchy

/-- Put below a given member, or at the top. -/
def isBelow (parent : Option String) (e : Accepted) : Bool := e.parent == parent

end Accepted

def MemberDraft.label (d : MemberDraft) : String × String := (d.name, d.uniqueName)

/-! ## Hierarchies -/

namespace HierarchyDraft

/-- The entry for a member that is put below another one, or at the top. -/
def entry (h : HierarchyDraft) (dimension : String) (parent : Option MemberDraft) (name : String) :
    Accepted :=
  ⟨dimension, h.uniqueName, parent.map (·.uniqueName), name, s!"{h.namePath parent}.[{name}]"⟩

/-- What is noted of a node: its depth, which is that of a level, and the entries just below it. -/
def Noted (levels : Nat) (log : List Accepted) (above : List MemberDraft) (d : MemberDraft)
    (below : List MemberDraft) : Prop :=
  d.depth = above.length ∧ d.depth < levels ∧
    below.map (·.label) = (log.filter (·.isBelow (some d.uniqueName))).map (·.label)

/-- The hierarchy has the members that a log lists, where the log puts them. -/
structure Records (h : HierarchyDraft) (log : List Accepted) : Prop where
  members : (h.members.map (·.label)).Perm (log.map (·.label))
  roots : h.forest.map (·.value.label) = (log.filter (·.isBelow none)).map (·.label)
  parents : ∀ e ∈ log, ∀ p, e.parent = some p → p ∈ h.members.map (·.uniqueName)
  nodes : Tree.EachIn (Noted h.levels.length log) [] h.forest

theorem filter_isBelow_append (log : List Accepted) (e : Accepted) (parent : Option String) :
    (log ++ [e]).filter (·.isBelow parent) =
      log.filter (·.isBelow parent) ++ if e.parent = parent then [e] else [] := by
  rw [List.filter_append]
  congr 1
  by_cases h : e.parent = parent <;> simp [Accepted.isBelow, h]

variable {h h' : HierarchyDraft} {log : List Accepted} {parent : Option MemberDraft} {name : String}
  {kind : MemberKind}

/-- The draft of a member that is put below another one, or at the top. -/
def draft (h : HierarchyDraft) (parent : Option MemberDraft) (name : String) (kind : MemberKind) :
    MemberDraft :=
  ⟨name, s!"{h.namePath parent}.[{name}]", kind, parent.elim 0 (·.depth + 1)⟩

/-- The forest with a leaf below every node that is named like `parent`, or at the end. -/
def grown (h : HierarchyDraft) (d : MemberDraft) : Option MemberDraft → List (Tree MemberDraft)
  | some p => Tree.insertUnderAll (·.uniqueName == p.uniqueName) d h.forest
  | none => h.forest ++ [Tree.leaf d]

theorem addMember_ok (ha : h.addMember parent name kind = .ok h') :
    (h.draft parent name kind).depth < h.levels.length ∧
      (h.draft parent name kind).uniqueName ∉ h.members.map (·.uniqueName) ∧
      h' = { h with forest := h.grown (h.draft parent name kind) parent } := by
  unfold HierarchyDraft.addMember at ha
  dsimp only at ha
  split at ha
  · cases ha
  · rename_i hdepth
    split at ha
    · cases ha
    · rename_i hfresh
      refine ⟨Nat.lt_of_not_le hdepth, not_mem_names_of_member? hfresh, ?_⟩
      cases ha
      cases parent <;> rfl

/-- Nothing stands below a name that is new. -/
theorem Records.filter_fresh (hr : h.Records log) {uniqueName : String}
    (hfresh : uniqueName ∉ h.members.map (·.uniqueName)) :
    log.filter (·.isBelow (some uniqueName)) = [] := by
  rw [List.filter_eq_nil_iff]
  intro e he hbelow
  exact hfresh (hr.parents e he uniqueName (by simpa [Accepted.isBelow] using hbelow))

/-- The new member is added once. -/
theorem grown_perm (hnames : h.NamesDistinct) (hparent : ∀ p, parent = some p → p ∈ h.members)
    (d : MemberDraft) : (Tree.preorderAll (h.grown d parent)).Perm (d :: h.members) := by
  rcases parent with _ | p
  · rw [grown, Tree.preorderAll_append]
    exact List.perm_append_singleton d _
  · obtain ⟨n, hle, hpos, hperm⟩ := Tree.insertUnderAll_perm
      (fun m : MemberDraft => m.uniqueName == p.uniqueName) d h.forest
    have hleast : 0 < n :=
      hpos (List.countP_pos_iff.2 ⟨p, hparent p rfl, beq_self_eq_true p.uniqueName⟩)
    have hmost : n ≤ 1 := Nat.le_trans hle (countP_name_le_one hnames p.uniqueName)
    obtain rfl : n = 1 := by omega
    exact hperm

/-- The new member becomes the last one just below its parent, or the last top. -/
theorem Records.roots_grown (hr : h.Records log) (dimension : String) :
    (h.grown (h.draft parent name kind) parent).map (·.value.label) =
      ((log ++ [h.entry dimension parent name]).filter (·.isBelow none)).map (·.label) := by
  rw [filter_isBelow_append, List.map_append, ← hr.roots]
  rcases parent with _ | p
  · rw [grown, List.map_append]
    rfl
  · have htops := congrArg (List.map MemberDraft.label) (Tree.map_value_insertUnderAll
      (fun m : MemberDraft => m.uniqueName == p.uniqueName) (h.draft (some p) name kind) h.forest)
    rw [List.map_map, List.map_map] at htops
    exact htops.trans (List.append_nil _).symm

theorem Records.nodes_grown (hr : h.Records log) (hnames : h.NamesDistinct)
    (hparent : ∀ p, parent = some p → p ∈ h.members)
    (hdepth : (h.draft parent name kind).depth < h.levels.length)
    (hfresh : (h.draft parent name kind).uniqueName ∉ h.members.map (·.uniqueName))
    (dimension : String) :
    Tree.EachIn (Noted h.levels.length (log ++ [h.entry dimension parent name])) []
      (h.grown (h.draft parent name kind) parent) := by
  let d := h.draft parent name kind
  let e := h.entry dimension parent name
  have hkept {above : List MemberDraft} {v : MemberDraft} {below : List MemberDraft}
      (hv : Noted h.levels.length log above v below) (hne : e.parent ≠ some v.uniqueName) :
      Noted h.levels.length (log ++ [e]) above v below := by
    obtain ⟨habove, hlevel, hbelow⟩ := hv
    refine ⟨habove, hlevel, ?_⟩
    rw [filter_isBelow_append, if_neg hne, List.append_nil]
    exact hbelow
  -- nothing is below the new member, not even itself
  have hleaf {above : List MemberDraft} (habove : d.depth = above.length)
      (hne : e.parent ≠ some d.uniqueName) : Noted h.levels.length (log ++ [e]) above d [] := by
    refine ⟨habove, hdepth, ?_⟩
    rw [filter_isBelow_append, if_neg hne, hr.filter_fresh hfresh]
    rfl
  rcases parent with _ | p
  · refine Tree.EachIn.append (hr.nodes.imp fun _ _ _ _ hv => hkept hv nofun) ⟨⟨?_, trivial⟩, trivial⟩
    exact hleaf rfl nofun
  · have hp : p ∈ h.members := hparent p rfl
    have hmember : Tree.EachIn (fun above v below => Noted h.levels.length log above v below ∧
        v ∈ h.members) [] h.forest := by
      refine hr.nodes.imp fun above v hv below hnoted => ?_
      exact ⟨hnoted, hv⟩
    refine hmember.insertUnderAll ?_ ?_ (countP_name_le_one hnames p.uniqueName)
    · rintro above v below ⟨hv, -⟩ hother
      refine hkept hv fun heq => ?_
      rw [← show p.uniqueName = v.uniqueName from Option.some.inj heq, beq_self_eq_true] at hother
      cases hother
    · rintro above v below ⟨⟨habove, hlevel, hbelow⟩, hmem⟩ hat
      obtain rfl : v = p := List.inj_on_of_nodup_map hnames hmem hp (eq_of_beq hat)
      refine ⟨⟨habove, hlevel, ?_⟩, hleaf ?_ ?_⟩
      · have hentry : (h.entry dimension (some v) name).parent = some v.uniqueName := rfl
        rw [filter_isBelow_append, if_pos hentry, List.map_append, List.map_append, hbelow]
        rfl
      · show v.depth + 1 = above.length + 1
        rw [habove]
      · intro heq
        rw [← show v.uniqueName = d.uniqueName from Option.some.inj heq] at hfresh
        exact hfresh (List.mem_map_of_mem hmem)

theorem Records.addMember (hr : h.Records log) (hnames : h.NamesDistinct)
    (hparent : ∀ p, parent = some p → p ∈ h.members)
    (ha : h.addMember parent name kind = .ok h') (dimension : String) :
    h'.Records (log ++ [h.entry dimension parent name]) := by
  obtain ⟨hdepth, hfresh, rfl⟩ := addMember_ok ha
  let d := h.draft parent name kind
  have hperm := grown_perm hnames hparent d
  have hlabel : (h.entry dimension parent name).label = d.label := rfl
  refine ⟨?_, hr.roots_grown dimension, ?_, hr.nodes_grown hnames hparent hdepth hfresh dimension⟩
  · rw [List.map_append]
    refine (hperm.map _).trans ?_
    rw [List.map_cons, List.map_singleton, hlabel]
    exact (hr.members.cons d.label).trans (List.perm_append_singleton _ _).symm
  · have hold {p : String} (hp : p ∈ h.members.map (·.uniqueName)) :
        p ∈ (Tree.preorderAll (h.grown d parent)).map (·.uniqueName) :=
      (hperm.map _).mem_iff.2 (List.mem_cons_of_mem _ hp)
    refine List.forall_mem_append.2 ⟨fun e he p hp => hold (hr.parents e he p hp), ?_⟩
    refine List.forall_mem_singleton.2 fun p hp => hold ?_
    obtain ⟨q, hq, rfl⟩ := Option.map_eq_some_iff.1 hp
    exact List.mem_map_of_mem (hparent q hq)

theorem records_empty (display uniqueName : String) (hasAll : Bool) (levels : List String) :
    Records ⟨display, uniqueName, hasAll, levels, []⟩ [] :=
  ⟨.refl _, rfl, List.forall_mem_nil _, trivial⟩

/-- The entry for the "all" member that a hierarchy starts with, if it has one. -/
def startEntries (dimension display uniqueName : String) (hasAll : Bool) : List Accepted :=
  let name := s!"All {display}s"
  if hasAll then [⟨dimension, uniqueName, none, name, s!"{uniqueName}.[{name}]"⟩] else []

theorem records_start {display uniqueName : String} {hasAll : Bool} {levels : List String}
    (hs : start display uniqueName hasAll levels = .ok h) (dimension : String) :
    h.Records (startEntries dimension display uniqueName hasAll) := by
  cases hasAll with
  | false =>
    cases hs
    exact records_empty _ _ _ _
  | true =>
    rw [start, if_pos rfl] at hs
    refine (records_empty _ _ _ _).addMember List.nodup_nil ?_ hs dimension
    rintro p ⟨⟩

end HierarchyDraft

/-! ## Builders -/

namespace CubeBuilder

/-- The hierarchies of a dimension, each with the name of the dimension. -/
def placedIn (d : DimensionDraft) : List (String × HierarchyDraft) :=
  d.hierarchies.map fun h => (d.name, h)

/-- All hierarchies, each with the name of its dimension. -/
def placed (b : CubeBuilder) : List (String × HierarchyDraft) := b.dimensions.flatMap placedIn

/-- The first hierarchy of a given unique name, with the name of its dimension. -/
def first? (b : CubeBuilder) (uniqueName : String) : Option (String × HierarchyDraft) :=
  b.placed.find? (·.2.uniqueName == uniqueName)

/-- The members that are added by a step, if it is not refused. -/
def accepts (b : CubeBuilder) : BuildStep → List Accepted
  | .dimension _ _ => []
  | .hierarchy dimension name hasAll levels =>
    match b.hierarchy dimension name hasAll levels with
    | .ok _ =>
      HierarchyDraft.startEntries dimension (name.getD dimension)
        (name.elim s!"[{dimension}]" fun n => s!"[{dimension}].[{n}]") hasAll
    | .error _ => []
  | .member hierarchy parent name =>
    match b.member hierarchy parent name, b.first? hierarchy with
    | .ok _, some (dimension, h) =>
      ((h.parentFor parent).toOption.map (h.entry dimension · name)).toList
    | _, _ => []
  | .measure name =>
    match b.measure name with
    | .ok b =>
      ((b.first? "[Measures]").map fun (dimension, h) => h.entry dimension none name).toList
    | .error _ => []

/-- The members that are added by several steps, in the order of the steps. -/
def ledger (b : CubeBuilder) : List BuildStep → List Accepted
  | [] => []
  | step :: steps => b.accepts step ++ (b.take step).ledger steps

/-- Every hierarchy has the members that the log lists for it, and the log lists no others. -/
structure Tallies (b : CubeBuilder) (log : List Accepted) : Prop where
  records : ∀ x ∈ b.placed, x.2.Records (log.filter (·.isIn x.1 x.2.uniqueName))
  known : ∀ e ∈ log, ∃ x ∈ b.placed, e.isIn x.1 x.2.uniqueName = true

variable {b b' : CubeBuilder} {log : List Accepted}

theorem Proper.placed_nodup (hb : b.Proper) :
    (b.placed.map fun x => (x.1, x.2.uniqueName)).Nodup := by
  obtain ⟨hnames, hdimensions⟩ := hb
  unfold placed
  generalize b.dimensions = ds at hnames hdimensions
  induction ds with
  | nil => exact List.nodup_nil
  | cons d ds ih =>
    obtain ⟨hd, hds⟩ := List.forall_mem_cons.1 hdimensions
    obtain ⟨hfresh, hrest⟩ := List.nodup_cons.1 hnames
    rw [List.flatMap_cons, List.map_append, placedIn, List.map_map]
    refine List.Nodup.append ?_ (ih hrest hds) ?_
    · refine List.Nodup.of_map Prod.snd ?_
      rw [List.map_map]
      exact hd.distinct
    · intro x hx hx'
      obtain ⟨h, -, rfl⟩ := List.mem_map.1 hx
      obtain ⟨y, hy, heq⟩ := List.mem_map.1 hx'
      obtain ⟨e, he, hy⟩ := List.mem_flatMap.1 hy
      obtain ⟨k, -, rfl⟩ := List.mem_map.1 hy
      have hname : e.name = d.name := congrArg Prod.fst heq
      exact hfresh (List.mem_map.2 ⟨e, he, hname⟩)

/-! ### Changing one hierarchy -/

section
variable {name : String} {f : HierarchyDraft → Except CatalogError HierarchyDraft}

theorem updateFirst_none {hs : List HierarchyDraft} (hu : updateFirst name f hs = .ok none) :
    ∀ k ∈ hs, k.uniqueName ≠ name := by
  induction hs with
  | nil => exact List.forall_mem_nil _
  | cons h hs ih =>
    rcases updateFirst_cons hu with ⟨-, k, -, heq⟩ | ⟨hne, ks, hks, heq⟩
    · cases heq
    · rw [Option.map_eq_none_iff.1 heq.symm] at hks
      exact List.forall_mem_cons.2 ⟨hne, ih hks⟩

theorem updateFirst_some {hs hs' : List HierarchyDraft}
    (hu : updateFirst name f hs = .ok (some hs')) :
    ∃ before h h' after, hs = before ++ h :: after ∧ hs' = before ++ h' :: after ∧
      (∀ k ∈ before, k.uniqueName ≠ name) ∧ h.uniqueName = name ∧ f h = .ok h' := by
  induction hs generalizing hs' with
  | nil => cases hu
  | cons h hs ih =>
    rcases updateFirst_cons hu with ⟨hname, k, hk, heq⟩ | ⟨hne, ks, hks, heq⟩
    · cases heq
      exact ⟨[], h, k, hs, rfl, rfl, List.forall_mem_nil _, hname, hk⟩
    · obtain ⟨ks, rfl, rfl⟩ := Option.map_eq_some_iff.1 heq.symm
      obtain ⟨before, k, k', after, rfl, rfl, hbefore, hname, hk⟩ := ih hks
      exact ⟨h :: before, k, k', after, rfl, rfl, List.forall_mem_cons.2 ⟨hne, hbefore⟩, hname, hk⟩

/-- An update changes the first hierarchy of the name. -/
theorem updateFirstIn_ok {ds ds' : List DimensionDraft} (hu : updateFirstIn name f ds = .ok ds') :
    ∃ before d h h' after, ds.flatMap placedIn = before ++ (d, h) :: after ∧
      ds'.flatMap placedIn = before ++ (d, h') :: after ∧
      (∀ x ∈ before, x.2.uniqueName ≠ name) ∧ h.uniqueName = name ∧ f h = .ok h' := by
  induction ds generalizing ds' with
  | nil => cases hu
  | cons d ds ih =>
    rcases updateFirstIn_cons hu with ⟨hs, hhs, rfl⟩ | ⟨hnone, es, hes, rfl⟩
    · obtain ⟨before, h, h', after, hdraft, rfl, hbefore, hname, hf⟩ := updateFirst_some hhs
      refine ⟨before.map (d.name, ·), d.name, h, h', after.map (d.name, ·) ++ ds.flatMap placedIn,
        ?_, ?_, List.forall_mem_map.2 hbefore, hname, hf⟩
      · rw [List.flatMap_cons, placedIn, hdraft]
        simp
      · rw [List.flatMap_cons, placedIn]
        simp
    · obtain ⟨before, e, h, h', after, hds, hes', hbefore, hname, hf⟩ := ih hes
      refine ⟨placedIn d ++ before, e, h, h', after, ?_, ?_, ?_, hname, hf⟩
      · rw [List.flatMap_cons, hds, List.append_assoc]
      · rw [List.flatMap_cons, hes', List.append_assoc]
      · refine List.forall_mem_append.2 ⟨?_, hbefore⟩
        exact List.forall_mem_map.2 (updateFirst_none hnone)

end

/-- What a change of the first hierarchy of a name does to all hierarchies. -/
theorem updateHierarchy_ok {name : String} {f : HierarchyDraft → Except CatalogError HierarchyDraft}
    (hu : b.updateHierarchy name f = .ok b') :
    ∃ before d h h' after, b.placed = before ++ (d, h) :: after ∧
      b'.placed = before ++ (d, h') :: after ∧ (∀ x ∈ before, x.2.uniqueName ≠ name) ∧
      h.uniqueName = name ∧ f h = .ok h' := by
  obtain ⟨ds, hds, hu⟩ := bind_eq_ok.1 hu
  cases hu
  exact updateFirstIn_ok hds

theorem first?_eq {name d : String} {h : HierarchyDraft}
    {before after : List (String × HierarchyDraft)} (hb : b.placed = before ++ (d, h) :: after)
    (hbefore : ∀ x ∈ before, x.2.uniqueName ≠ name) (hname : h.uniqueName = name) :
    b.first? name = some (d, h) := by
  have hnone : before.find? (·.2.uniqueName == name) = none :=
    List.find?_eq_none.2 fun x hx => by simpa using hbefore x hx
  have hfound : ((d, h) :: after).find? (·.2.uniqueName == name) = some (d, h) :=
    List.find?_cons_of_pos (by simpa using hname)
  rw [first?, hb, List.find?_append, hnone, hfound]
  rfl

/-! ### Each step -/

theorem isIn_iff {e : Accepted} {dimension hierarchy : String} :
    e.isIn dimension hierarchy = true ↔ e.dimension = dimension ∧ e.hierarchy = hierarchy := by
  simp [Accepted.isIn]

theorem Tallies.update (ht : b.Tallies log)
    (hdistinct : (b.placed.map fun x => (x.1, x.2.uniqueName)).Nodup)
    {d : String} {h h' : HierarchyDraft} {before after : List (String × HierarchyDraft)}
    (hb : b.placed = before ++ (d, h) :: after) (hb' : b'.placed = before ++ (d, h') :: after)
    (hname : h'.uniqueName = h.uniqueName) {e : Accepted} (he : e.isIn d h.uniqueName = true)
    (hrecords : ∀ l, h.Records l → h'.Records (l ++ [e])) : b'.Tallies (log ++ [e]) := by
  obtain ⟨rfl, hhierarchy⟩ := isIn_iff.1 he
  have hmiddle (k : HierarchyDraft) (x : String × HierarchyDraft) :
      x ∈ before ++ (e.dimension, k) :: after ↔ x = (e.dimension, k) ∨ x ∈ before ++ after := by
    rw [List.perm_middle.mem_iff, List.mem_cons]
  rw [hb, (List.perm_middle.map _).nodup_iff, List.map_cons, List.nodup_cons] at hdistinct
  -- the entry is for this hierarchy alone
  have hother {x : String × HierarchyDraft} (hx : x ∈ before ++ after) :
      e.isIn x.1 x.2.uniqueName = false := by
    rw [Bool.eq_false_iff, ne_eq, isIn_iff, hhierarchy]
    rintro ⟨hd, hu⟩
    exact hdistinct.1 (List.mem_map.2 ⟨x, hx, by rw [hd, hu]⟩)
  constructor
  · intro x hx
    rw [hb', hmiddle] at hx
    rw [List.filter_append, List.filter_singleton]
    rcases hx with rfl | hx
    · have hold := ht.records (e.dimension, h) (by rw [hb, hmiddle]; exact .inl rfl)
      rw [hname, he]
      exact hrecords _ hold
    · have hold := ht.records x (by rw [hb, hmiddle]; exact .inr hx)
      rw [hother hx]
      simpa using hold
  · refine List.forall_mem_append.2 ⟨fun e' he' => ?_, List.forall_mem_singleton.2 ?_⟩
    · obtain ⟨x, hx, hin⟩ := ht.known e' he'
      rw [hb, hmiddle] at hx
      rcases hx with rfl | hx
      · exact ⟨(e.dimension, h'), by rw [hb', hmiddle]; exact .inl rfl, by rw [hname]; exact hin⟩
      · exact ⟨x, by rw [hb', hmiddle]; exact .inr hx, hin⟩
    · exact ⟨(e.dimension, h'), by rw [hb', hmiddle]; exact .inl rfl, by rw [hname]; exact he⟩

theorem Proper.names_of_placed (hb : b.Proper) {x : String × HierarchyDraft} (hx : x ∈ b.placed) :
    x.2.NamesDistinct := by
  obtain ⟨d, hd, hx⟩ := List.mem_flatMap.1 hx
  obtain ⟨h, hh, rfl⟩ := List.mem_map.1 hx
  exact ((hb.dimensions d hd).hierarchies h hh).names

/-- A member that is accepted is the next entry of the log. -/
theorem Tallies.grow (ht : b.Tallies log) (hb : b.Proper) {hierarchy : String}
    {f : HierarchyDraft → Except CatalogError HierarchyDraft}
    (hu : b.updateHierarchy hierarchy f = .ok b') :
    ∃ d k k', b.first? hierarchy = some (d, k) ∧ f k = .ok k' ∧
      ∀ p name kind, (∀ q, p = some q → q ∈ k.members) → k.addMember p name kind = .ok k' →
        b'.first? hierarchy = some (d, k') ∧ b'.Tallies (log ++ [k.entry d p name]) := by
  obtain ⟨before, d, k, k', after, hplaced, hplaced', hbefore, hname, hk⟩ := updateHierarchy_ok hu
  refine ⟨d, k, k', first?_eq hplaced hbefore hname, hk, fun p name kind hp hadd => ?_⟩
  have hkept : k'.uniqueName = k.uniqueName := by
    obtain ⟨-, -, rfl⟩ := HierarchyDraft.addMember_ok hadd
    rfl
  have hmem : (d, k) ∈ b.placed := by
    rw [hplaced]
    exact List.mem_append_right _ List.mem_cons_self
  refine ⟨first?_eq hplaced' hbefore (hkept.trans hname), ?_⟩
  refine ht.update hb.placed_nodup hplaced hplaced' hkept (isIn_iff.2 ⟨rfl, rfl⟩) fun l hl => ?_
  exact hl.addMember (hb.names_of_placed hmem) hp hadd d

theorem Tallies.member (ht : b.Tallies log) (hb : b.Proper) {hierarchy : String}
    {parent : Option String} {name : String} (h : b.member hierarchy parent name = .ok b') :
    b'.Tallies (log ++ b.accepts (.member hierarchy parent name)) := by
  obtain ⟨d, k, k', hfirst, hk, hgrow⟩ := ht.grow hb h
  obtain ⟨p, hp, hk⟩ := bind_eq_ok.1 hk
  obtain ⟨-, htallies⟩ := hgrow p name .regular (HierarchyDraft.mem_of_parentFor hp) hk
  simp only [accepts, h, hfirst, hp]
  exact htallies

/-- A dimension is declared without hierarchies. -/
theorem placed_dimension (b : CubeBuilder) (name : String) (kind : DimensionKind) :
    (b.dimension name kind).placed = b.placed := by
  unfold CubeBuilder.dimension placed
  split
  · rfl
  · simp [placedIn]

theorem Tallies.dimension (ht : b.Tallies log) (name : String) (kind : DimensionKind) :
    (b.dimension name kind).Tallies log := by
  have hplaced := placed_dimension b name kind
  exact ⟨hplaced ▸ ht.records, hplaced ▸ ht.known⟩

/-- A hierarchy that is accepted has a name of its own in its dimension, and joins those that are
there. -/
theorem hierarchy_ok (hb : b.Proper) {dimension : String} {name : Option String} {hasAll : Bool}
    {levels : List String} (h : b.hierarchy dimension name hasAll levels = .ok b') :
    let uniqueName := name.elim s!"[{dimension}]" fun n => s!"[{dimension}].[{n}]"
    ∃ k, HierarchyDraft.start (name.getD dimension) uniqueName hasAll levels = .ok k ∧
      (∀ x ∈ b.placed, ¬ (x.1 = dimension ∧ x.2.uniqueName = uniqueName)) ∧
      ∀ x, x ∈ b'.placed ↔ x ∈ b.placed ∨ x = (dimension, k) := by
  obtain ⟨found, k, hfound, hfoundName, hfresh, hstart, rfl⟩ := hierarchy_eq_ok h
  refine ⟨k, hstart, ?_, fun x => ?_⟩
  · rintro x hx ⟨hd, hu⟩
    obtain ⟨d, hdim, hx⟩ := List.mem_flatMap.1 hx
    obtain ⟨l, hl, rfl⟩ := List.mem_map.1 hx
    obtain rfl : d = found :=
      List.inj_on_of_nodup_map hb.distinct hdim hfound (hd.trans hfoundName.symm)
    exact hfresh l hl hu
  · have hgrown (d : DimensionDraft) : x ∈ placedIn (if d.name == dimension then
          { d with hierarchies := d.hierarchies ++ [k] } else d) ↔
        x ∈ placedIn d ∨ d.name = dimension ∧ x = (d.name, k) := by
      split
      · rename_i hd
        simp [placedIn, eq_of_beq hd]
      · rename_i hd
        simp [show ¬ d.name = dimension by simpa using hd]
    rw [placed, placed, List.flatMap_map, List.mem_flatMap, List.mem_flatMap]
    simp only [hgrown]
    constructor
    · rintro ⟨d, hd, hx | ⟨rfl, hx⟩⟩
      · exact .inl ⟨d, hd, hx⟩
      · exact .inr hx
    · rintro (⟨d, hd, hx⟩ | rfl)
      · exact ⟨d, hd, .inl hx⟩
      · exact ⟨found, hfound, .inr ⟨hfoundName, by rw [hfoundName]⟩⟩

theorem Tallies.hierarchy (ht : b.Tallies log) (hb : b.Proper) {dimension : String}
    {name : Option String} {hasAll : Bool} {levels : List String}
    (h : b.hierarchy dimension name hasAll levels = .ok b') :
    b'.Tallies (log ++ b.accepts (.hierarchy dimension name hasAll levels)) := by
  obtain ⟨k, hs, hfresh, hplaced⟩ := hierarchy_ok hb h
  let u := name.elim s!"[{dimension}]" fun n => s!"[{dimension}].[{n}]"
  let entries := HierarchyDraft.startEntries dimension (name.getD dimension) u hasAll
  have haccepts : b.accepts (.hierarchy dimension name hasAll levels) = entries := by
    simp only [accepts, h]
    rfl
  have hku : k.uniqueName = u := (HierarchyDraft.proper_start hs).1
  have hentries : ∀ e ∈ entries, e.dimension = dimension ∧ e.hierarchy = u := by
    intro e he
    unfold entries HierarchyDraft.startEntries at he
    cases hasAll with
    | false => cases he
    | true =>
      rw [List.mem_singleton.1 he]
      exact ⟨rfl, rfl⟩
  rw [haccepts]
  constructor
  · intro x hx
    rw [List.filter_append]
    rcases (hplaced x).1 hx with hx | rfl
    · have hnone : entries.filter (·.isIn x.1 x.2.uniqueName) = [] := by
        refine List.filter_eq_nil_iff.2 fun e he hin => hfresh x hx ?_
        obtain ⟨hd, hu⟩ := isIn_iff.1 hin
        obtain ⟨hd', hu'⟩ := hentries e he
        exact ⟨hd.symm.trans hd', hu.symm.trans hu'⟩
      rw [hnone, List.append_nil]
      exact ht.records x hx
    · have hnone : log.filter (·.isIn dimension k.uniqueName) = [] := by
        refine List.filter_eq_nil_iff.2 fun e he hin => ?_
        obtain ⟨x, hx, hin'⟩ := ht.known e he
        obtain ⟨hd, hu⟩ := isIn_iff.1 hin
        obtain ⟨hd', hu'⟩ := isIn_iff.1 hin'
        exact hfresh x hx ⟨hd'.symm.trans hd, hu'.symm.trans (hu.trans hku)⟩
      have hall : entries.filter (·.isIn dimension k.uniqueName) = entries := by
        refine List.filter_eq_self.2 fun e he => isIn_iff.2 ?_
        rw [hku]
        exact hentries e he
      rw [hnone, hall, List.nil_append]
      exact HierarchyDraft.records_start hs dimension
  · refine List.forall_mem_append.2 ⟨fun e he => ?_, fun e he => ?_⟩
    · obtain ⟨x, hx, hin⟩ := ht.known e he
      exact ⟨x, (hplaced x).2 (.inl hx), hin⟩
    · refine ⟨(dimension, k), (hplaced _).2 (.inr rfl), isIn_iff.2 ?_⟩
      rw [hku]
      exact hentries e he

theorem Tallies.measure (ht : b.Tallies log) (hb : b.Proper) {name : String}
    (h : b.measure name = .ok b') : b'.Tallies (log ++ b.accepts (.measure name)) := by
  have hmeasure {c : CubeBuilder} (hc : c.Proper) (htc : c.Tallies log)
      (hu : c.updateHierarchy "[Measures]" (·.addMember none name .measure) = .ok b') :
      b'.Tallies (log ++ b.accepts (.measure name)) := by
    obtain ⟨d, k, k', -, hk, hgrow⟩ := htc.grow hc hu
    obtain ⟨hfirst, htallies⟩ := hgrow none name .measure nofun hk
    have hentry : k'.entry d none name = k.entry d none name := by
      obtain ⟨-, -, rfl⟩ := HierarchyDraft.addMember_ok hk
      rfl
    simp only [accepts, h, hfirst]
    rw [← hentry] at htallies
    exact htallies
  obtain ⟨c, rfl | hc, hu⟩ := measure_eq_ok h
  · exact hmeasure hb ht hu
  · have hdim := hb.dimension "Measures" .measures
    have htc := (ht.dimension "Measures" .measures).hierarchy hdim hc
    have hnone : (b.dimension "Measures" .measures).accepts
        (.hierarchy "Measures" none false ["MeasuresLevel"]) = [] := by
      simp only [accepts, hc]
      rfl
    rw [hnone, List.append_nil] at htc
    exact hmeasure (hdim.hierarchy hc) htc hu

theorem Tallies.take (ht : b.Tallies log) (hb : b.Proper) (step : BuildStep) :
    (b.take step).Tallies (log ++ b.accepts step) := by
  unfold CubeBuilder.take
  cases step with
  | dimension name kind =>
    rw [accepts, List.append_nil]
    exact ht.dimension name kind
  | hierarchy dimension name hasAll levels =>
    rcases h : b.hierarchy dimension name hasAll levels with e | b'
    · simpa [accepts, h] using ht
    · simpa only [h] using ht.hierarchy hb h
  | member hierarchy parent name =>
    rcases h : b.member hierarchy parent name with e | b'
    · simpa [accepts, h] using ht
    · simpa only [h] using ht.member hb h
  | measure name =>
    rcases h : b.measure name with e | b'
    · simpa [accepts, h] using ht
    · simpa only [h] using ht.measure hb h

theorem tallies_empty (name : String) : (empty name).Tallies [] :=
  ⟨List.forall_mem_nil _, List.forall_mem_nil _⟩

/-- The ledger of an assembly accounts for all members of all hierarchies. -/
theorem tallies_ledger (ht : b.Tallies log) (hb : b.Proper) (steps : List BuildStep) :
    (steps.foldl CubeBuilder.take b).Tallies (log ++ b.ledger steps) := by
  induction steps generalizing b log with
  | nil =>
    rw [ledger, List.append_nil]
    exact ht
  | cons step steps ih =>
    rw [ledger, ← List.append_assoc]
    exact ih (ht.take hb step) (hb.take step)

end CubeBuilder

end Olap
