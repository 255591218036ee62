import Olap.Catalog.Assembly
import Olap.Proofs.Outcomes
import Mathlib.Data.List.Count
import Mathlib.Data.List.Forall2
import Mathlib.Data.List.Nodup

/-!
# What a builder keeps to

A builder refuses what would make names ambiguous within a hierarchy or a dimension, and makes all
unique names in one way: that of a hierarchy is the name of its dimension in brackets, followed by its
own if it has one; that of a member is the unique name of what it stands below, followed by its own
name in brackets. Every step keeps to this (`CubeBuilder.Proper`, `CubeBuilder.proper_foldl`).
-/

set_option autoImplicit false

namespace Olap

/-! ## Growing trees -/

namespace Tree

variable {α : Type} (p : α → Bool) (v : α)

mutual

/-- As many copies are added as there are nodes to add them to, or fewer, but not none if there is such a
node. -/
theorem insertUnder_perm : ∀ t : Tree α, ∃ n, n ≤ t.preorder.countP p ∧
    (0 < t.preorder.countP p → 0 < n) ∧
    (t.insertUnder p v).preorder.Perm (List.replicate n v ++ t.preorder)
  | node w ts => by
    rw [insertUnder, preorder]
    by_cases hp : p w
    · refine ⟨1, by simp [hp], fun _ => Nat.one_pos, ?_⟩
      rw [if_pos hp, preorder, preorderAll_append]
      show (w :: (preorderAll ts ++ [v])).Perm (v :: w :: preorderAll ts)
      exact ((List.perm_append_singleton v _).cons w).trans (List.Perm.swap v w _)
    · obtain ⟨n, hn, hpos, hperm⟩ := insertUnderAll_perm ts
      refine ⟨n, by simpa [hp] using hn, by simpa [hp] using hpos, ?_⟩
      rw [if_neg hp, preorder]
      exact (hperm.cons w).trans List.perm_middle.symm

theorem insertUnderAll_perm : ∀ ts : List (Tree α), ∃ n, n ≤ (preorderAll ts).countP p ∧
    (0 < (preorderAll ts).countP p → 0 < n) ∧
    (preorderAll (insertUnderAll p v ts)).Perm (List.replicate n v ++ preorderAll ts)
  | [] => ⟨0, Nat.zero_le _, id, .refl _⟩
  | t :: ts => by
    obtain ⟨n, hn, hnpos, hperm⟩ := insertUnder_perm t
    obtain ⟨k, hk, hkpos, hperm'⟩ := insertUnderAll_perm ts
    rw [insertUnderAll, preorderAll, preorderAll, List.countP_append]
    refine ⟨n + k, by omega, by omega, (hperm.append hperm').trans ?_⟩
    rw [← List.replicate_append_replicate, List.append_assoc, List.append_assoc]
    refine List.Perm.append_left _ ?_
    rw [← List.append_assoc, ← List.append_assoc]
    exact List.perm_append_comm.append_right _

end

end Tree

/-! ## Lists side by side -/

theorem exists_mem_of_forall₂ {α β : Type} {R : α → β → Prop} {as : List α} {bs : List β}
    (h : List.Forall₂ R as bs) : ∀ b ∈ bs, ∃ a ∈ as, R a b := by
  induction h with
  | nil => exact List.forall_mem_nil _
  | cons hab _ ih =>
    refine List.forall_mem_cons.2 ⟨⟨_, List.mem_cons_self, hab⟩, fun b hb => ?_⟩
    obtain ⟨a, ha, hab⟩ := ih b hb
    exact ⟨a, List.mem_cons_of_mem _ ha, hab⟩

theorem map_eq_of_forall₂ {α β γ : Type} {R : α → β → Prop} {f : α → γ} {g : β → γ} {as : List α}
    {bs : List β} (h : List.Forall₂ R as bs) (hfg : ∀ a ∈ as, ∀ b, R a b → g b = f a) :
    bs.map g = as.map f := by
  induction h with
  | nil => rfl
  | cons hab _ ih =>
    obtain ⟨ha, has⟩ := List.forall_mem_cons.1 hfg
    rw [List.map_cons, List.map_cons, ha _ hab, ih has]

/-! ## Drafts -/

namespace HierarchyDraft

/-- No two members share a unique name. -/
def NamesDistinct (h : HierarchyDraft) : Prop := (h.members.map (·.uniqueName)).Nodup

theorem not_mem_names_of_member? {h : HierarchyDraft} {name : String}
    (hn : ¬ (h.member? name).isSome) : name ∉ h.members.map (·.uniqueName) := by
  intro hmem
  obtain ⟨m, hm, rfl⟩ := List.mem_map.1 hmem
  exact hn (List.find?_isSome.2 ⟨m, hm, by simp⟩)

theorem countP_name_le_one {ms : List MemberDraft} (h : (ms.map (·.uniqueName)).Nodup)
    (name : String) : ms.countP (·.uniqueName == name) ≤ 1 := by
  have := List.nodup_iff_count_le_one.1 h name
  rwa [List.count, List.countP_map] at this

theorem NamesDistinct.addMember {h h' : HierarchyDraft} (hd : h.NamesDistinct)
    {parent : Option MemberDraft} {name : String} {kind : MemberKind}
    (ha : h.addMember parent name kind = .ok h') : h'.NamesDistinct := by
  unfold HierarchyDraft.addMember at ha
  dsimp only at ha
  split at ha
  · cases ha
  · split at ha
    · cases ha
    · rename_i hfresh
      cases ha
      have hfresh := not_mem_names_of_member? hfresh
      unfold NamesDistinct members
      rcases parent with _ | p
      · simp only [Tree.preorderAll_append, Tree.leaf, Tree.preorderAll, Tree.preorder,
          List.map_append]
        refine List.Nodup.append hd (List.nodup_singleton _) ?_
        exact List.disjoint_singleton.2 hfresh
      · obtain ⟨n, hn, -, hperm⟩ := Tree.insertUnderAll_perm
          (fun m : MemberDraft => m.uniqueName == p.uniqueName)
          ⟨name, _, kind, (some p).elim 0 (·.depth + 1)⟩ h.forest
        refine (hperm.map _).nodup_iff.2 ?_
        have hle := countP_name_le_one hd p.uniqueName
        rw [List.map_append, List.map_replicate]
        refine List.Nodup.append (List.nodup_replicate.2 (Nat.le_trans hn hle)) hd ?_
        intro x hx
        rw [List.eq_of_mem_replicate hx]
        exact hfresh

/-- What the unique names of the members below a member start with. -/
def below (root : String) (d : MemberDraft) : String :=
  if d.kind = .all then root else d.uniqueName

mutual

/-- In a tree below something named `top`, every unique name goes on from that of the parent; `root`
names the hierarchy. -/
def Labelled (root top : String) : Tree MemberDraft → Prop
  | .node d ts => d.uniqueName = s!"{top}.[{d.name}]" ∧ AllLabelled root (below root d) ts

/-- `Labelled` for every tree of a forest. -/
def AllLabelled (root top : String) : List (Tree MemberDraft) → Prop
  | [] => True
  | t :: ts => Labelled root top t ∧ AllLabelled root top ts

end

variable {root top : String}

theorem AllLabelled.append {ts us : List (Tree MemberDraft)} (ht : AllLabelled root top ts)
    (hu : AllLabelled root top us) : AllLabelled root top (ts ++ us) := by
  induction ts with
  | nil => exact hu
  | cons t ts ih => exact ⟨ht.1, ih ht.2⟩

theorem allLabelled_leaf {d : MemberDraft} (h : d.uniqueName = s!"{top}.[{d.name}]") :
    AllLabelled root top [Tree.leaf d] :=
  ⟨⟨h, trivial⟩, trivial⟩

mutual

/-- A leaf is inserted rightly if its name goes on from that of every node that it is put under. -/
theorem labelled_insertUnder {p : MemberDraft → Bool} {v : MemberDraft} : ∀ {top : String}
    (t : Tree MemberDraft), Labelled root top t →
      (∀ w ∈ t.preorder, p w = true → v.uniqueName = s!"{below root w}.[{v.name}]") →
      Labelled root top (t.insertUnder p v)
  | top, .node w ts, ht, hv => by
    obtain ⟨hw, hts⟩ := ht
    rw [Tree.preorder] at hv
    rw [Tree.insertUnder]
    split
    · rename_i hp
      exact ⟨hw, hts.append (allLabelled_leaf (hv w List.mem_cons_self hp))⟩
    · exact ⟨hw, allLabelled_insertUnderAll ts hts fun u hu => hv u (List.mem_cons_of_mem w hu)⟩

theorem allLabelled_insertUnderAll {p : MemberDraft → Bool} {v : MemberDraft} : ∀ {top : String}
    (ts : List (Tree MemberDraft)), AllLabelled root top ts →
      (∀ w ∈ Tree.preorderAll ts, p w = true → v.uniqueName = s!"{below root w}.[{v.name}]") →
      AllLabelled root top (Tree.insertUnderAll p v ts)
  | _, [], _, _ => trivial
  | _, t :: ts, ht, hv => by
    rw [Tree.preorderAll] at hv
    exact ⟨labelled_insertUnder t ht.1 fun u hu => hv u (List.mem_append_left _ hu),
      allLabelled_insertUnderAll ts ht.2 fun u hu => hv u (List.mem_append_right _ hu)⟩

end

/-- What holds of a hierarchy of a dimension while it is assembled. -/
structure Proper (dimension : String) (h : HierarchyDraft) : Prop where
  names : h.NamesDistinct
  uniqueName : h.uniqueName = s!"[{dimension}]" ∨ h.uniqueName = s!"[{dimension}].[{h.name}]"
  labelled : AllLabelled h.uniqueName h.uniqueName h.forest

variable {dimension : String} {h h' : HierarchyDraft}

theorem Proper.addMember (hp : h.Proper dimension) {parent : Option MemberDraft}
    (hparent : ∀ p, parent = some p → p ∈ h.members) {name : String} {kind : MemberKind}
    (ha : h.addMember parent name kind = .ok h') :
    h'.uniqueName = h.uniqueName ∧ h'.Proper dimension := by
  have hnames := hp.names.addMember ha
  unfold HierarchyDraft.addMember at ha
  dsimp only at ha
  split at ha
  · cases ha
  · split at ha
    · cases ha
    · cases ha
      refine ⟨rfl, hnames, hp.uniqueName, ?_⟩
      rcases parent with _ | p
      · exact hp.labelled.append (allLabelled_leaf rfl)
      · refine allLabelled_insertUnderAll h.forest hp.labelled fun w hw hwp => ?_
        -- names are distinct, so the new member is put under its parent alone
        have hname : w.uniqueName = p.uniqueName := eq_of_beq hwp
        rw [List.inj_on_of_nodup_map hp.names hw (hparent p rfl) hname]
        rfl

theorem proper_start {name : Option String} {hasAll : Bool} {levels : List String}
    (hs : start (name.getD dimension)
      (name.elim s!"[{dimension}]" fun n => s!"[{dimension}].[{n}]") hasAll levels = .ok h) :
    h.uniqueName = (name.elim s!"[{dimension}]" fun n => s!"[{dimension}].[{n}]") ∧
      h.Proper dimension := by
  have hempty (levels : List String) : Proper dimension
      ⟨name.getD dimension, name.elim s!"[{dimension}]" fun n => s!"[{dimension}].[{n}]", hasAll,
        levels, []⟩ := by
    refine ⟨List.nodup_nil, ?_, trivial⟩
    cases name with
    | none => exact .inl rfl
    | some n => exact .inr rfl
  unfold start at hs
  split at hs
  · rename_i hall
    subst hall
    exact (hempty _).addMember (by simp) hs
  · rename_i hall
    rw [Bool.not_eq_true] at hall
    subst hall
    cases hs
    exact ⟨rfl, hempty levels⟩

theorem mem_of_parentFor {parent : Option String} {o : Option MemberDraft}
    (ho : h.parentFor parent = .ok o) : ∀ p, o = some p → p ∈ h.members := by
  rintro p rfl
  unfold parentFor at ho
  split at ho
  · split at ho
    · rename_i hfound
      cases ho
      exact List.mem_of_find?_eq_some hfound
    · cases ho
  · split at ho
    · rw [Except.ok.injEq] at ho
      exact List.mem_of_head? ho
    · cases ho

end HierarchyDraft

/-! ## Steps of assembly -/

/-- What holds of a dimension while it is assembled: its hierarchies have names of their own. -/
structure DimensionDraft.Proper (d : DimensionDraft) : Prop where
  distinct : (d.hierarchies.map (·.uniqueName)).Nodup
  hierarchies : ∀ h ∈ d.hierarchies, h.Proper d.name

namespace CubeBuilder

/-- Takes a step; a step that is refused leaves the builder as it was. -/
def take (b : CubeBuilder) (step : BuildStep) : CubeBuilder :=
  let outcome : Except CatalogError CubeBuilder :=
    match step with
    | .dimension name kind => .ok (b.dimension name kind)
    | .hierarchy dimension name hasAll levels => b.hierarchy dimension name hasAll levels
    | .member hierarchy parent name => b.member hierarchy parent name
    | .measure name => b.measure name
  match outcome with
  | .ok b => b
  | .error _ => b

/-- No hierarchy has two members that share a unique name. -/
def NamesDistinct (b : CubeBuilder) : Prop := ∀ h ∈ b.hierarchies, h.NamesDistinct

theorem namesDistinct_iff {b : CubeBuilder} :
    b.NamesDistinct ↔ ∀ d ∈ b.dimensions, ∀ h ∈ d.hierarchies, h.NamesDistinct := by
  simp only [NamesDistinct, hierarchies, List.mem_flatMap]
  exact ⟨fun H d hd h hh => H h ⟨d, hd, hh⟩, fun H h ⟨d, hd, hh⟩ => H d hd h hh⟩

/-- What holds of a cube while it is assembled (module doc). -/
structure Proper (b : CubeBuilder) : Prop where
  distinct : (b.dimensions.map (·.name)).Nodup
  dimensions : ∀ d ∈ b.dimensions, d.Proper

variable {b b' : CubeBuilder} {name : String}
  {f : HierarchyDraft → Except CatalogError HierarchyDraft}

theorem proper_empty (name : String) : (empty name).Proper :=
  ⟨List.nodup_nil, List.forall_mem_nil _⟩

theorem Proper.namesDistinct (hb : b.Proper) : b.NamesDistinct :=
  namesDistinct_iff.2 fun d hd h hh => ((hb.dimensions d hd).hierarchies h hh).names

/-! ### Changing one hierarchy -/

/-- A hierarchy is as it was, or as `f` makes it. -/
def Changed (f : HierarchyDraft → Except CatalogError HierarchyDraft) (h h' : HierarchyDraft) : Prop :=
  h' = h ∨ f h = .ok h'

theorem updateFirst_cons {h : HierarchyDraft} {hs : List HierarchyDraft}
    {r : Option (List HierarchyDraft)} (hu : updateFirst name f (h :: hs) = .ok r) :
    (h.uniqueName = name ∧ ∃ k, f h = .ok k ∧ r = some (k :: hs)) ∨
      (h.uniqueName ≠ name ∧ ∃ ks, updateFirst name f hs = .ok ks ∧ r = ks.map (h :: ·)) := by
  rw [updateFirst] at hu
  split at hu
  · rename_i hname
    obtain ⟨k, hk, hu⟩ := bind_eq_ok.1 hu
    cases hu
    exact .inl ⟨eq_of_beq hname, k, hk, rfl⟩
  · rename_i hname
    obtain ⟨ks, hks, hu⟩ := bind_eq_ok.1 hu
    cases hu
    exact .inr ⟨by simpa using hname, ks, hks, rfl⟩

theorem updateFirstIn_cons {d : DimensionDraft} {ds ds' : List DimensionDraft}
    (hu : updateFirstIn name f (d :: ds) = .ok ds') :
    (∃ hs, updateFirst name f d.hierarchies = .ok (some hs) ∧
        ds' = { d with hierarchies := hs } :: ds) ∨
      (updateFirst name f d.hierarchies = .ok none ∧
        ∃ es, updateFirstIn name f ds = .ok es ∧ ds' = d :: es) := by
  rw [updateFirstIn] at hu
  obtain ⟨_ | hs, hfirst, hu⟩ := bind_eq_ok.1 hu
  · obtain ⟨es, hes, hu⟩ := bind_eq_ok.1 hu
    cases hu
    exact .inr ⟨hfirst, es, hes, rfl⟩
  · cases hu
    exact .inl ⟨hs, hfirst, rfl⟩

theorem updateFirst_forall₂ {hs hs' : List HierarchyDraft}
    (hu : updateFirst name f hs = .ok (some hs')) : List.Forall₂ (Changed f) hs hs' := by
  have hkept : ∀ ks : List HierarchyDraft, List.Forall₂ (Changed f) ks ks :=
    fun ks => List.forall₂_same.2 fun _ _ => .inl rfl
  induction hs generalizing hs' with
  | nil => cases hu
  | cons h hs ih =>
    rcases updateFirst_cons hu with ⟨-, k, hk, heq⟩ | ⟨-, ks, hks, heq⟩
    · cases heq
      exact .cons (.inr hk) (hkept hs)
    · obtain ⟨ks, rfl, rfl⟩ := Option.map_eq_some_iff.1 heq.symm
      exact .cons (.inl rfl) (ih hks)

/-- An update changes hierarchies and nothing else. -/
theorem updateFirstIn_forall₂ {ds ds' : List DimensionDraft}
    (hu : updateFirstIn name f ds = .ok ds') :
    List.Forall₂ (fun d d' : DimensionDraft => d'.name = d.name ∧
      List.Forall₂ (Changed f) d.hierarchies d'.hierarchies) ds ds' := by
  have hkept : ∀ d : DimensionDraft, d.name = d.name ∧
      List.Forall₂ (Changed f) d.hierarchies d.hierarchies :=
    fun d => ⟨rfl, List.forall₂_same.2 fun _ _ => .inl rfl⟩
  induction ds generalizing ds' with
  | nil => cases hu
  | cons d ds ih =>
    rcases updateFirstIn_cons hu with ⟨hs, hhs, rfl⟩ | ⟨-, es, hes, rfl⟩
    · exact .cons ⟨rfl, updateFirst_forall₂ hhs⟩ (List.forall₂_same.2 fun d _ => hkept d)
    · exact .cons (hkept d) (ih hes)

theorem Proper.updateHierarchy (hb : b.Proper)
    (hf : ∀ dimension h h', HierarchyDraft.Proper dimension h → f h = .ok h' →
      h'.uniqueName = h.uniqueName ∧ h'.Proper dimension)
    (h : b.updateHierarchy name f = .ok b') : b'.Proper := by
  obtain ⟨ds, hds, h⟩ := bind_eq_ok.1 h
  cases h
  have hdims := updateFirstIn_forall₂ hds
  refine ⟨?_, fun d' hd' => ?_⟩
  · show (ds.map (·.name)).Nodup
    rw [map_eq_of_forall₂ hdims fun _ _ _ h => h.1]
    exact hb.distinct
  · obtain ⟨d, hd, hname, hchanged⟩ := exists_mem_of_forall₂ hdims d' hd'
    have hproper := hb.dimensions d hd
    have hkept : ∀ k ∈ d.hierarchies, ∀ k', Changed f k k' →
        k'.uniqueName = k.uniqueName ∧ k'.Proper d.name := by
      rintro k hk k' (rfl | hk')
      · exact ⟨rfl, hproper.hierarchies k' hk⟩
      · exact hf d.name k k' (hproper.hierarchies k hk) hk'
    refine ⟨?_, fun k' hk' => ?_⟩
    · rw [map_eq_of_forall₂ hchanged fun k hk k' h => (hkept k hk k' h).1]
      exact hproper.distinct
    · obtain ⟨k, hk, h⟩ := exists_mem_of_forall₂ hchanged k' hk'
      rw [hname]
      exact (hkept k hk k' h).2

/-! ### Each step -/

theorem Proper.dimension (hb : b.Proper) (name : String) (kind : DimensionKind) :
    (b.dimension name kind).Proper := by
  unfold CubeBuilder.dimension
  split
  · exact hb
  · rename_i hfresh
    refine ⟨?_, fun d hd => ?_⟩
    · rw [List.map_append]
      refine List.Nodup.append hb.distinct (List.nodup_singleton _) (List.disjoint_singleton.2 ?_)
      intro hmem
      obtain ⟨d, hd, hname⟩ := List.mem_map.1 hmem
      exact hfresh (List.any_eq_true.2 ⟨d, hd, beq_iff_eq.2 hname⟩)
    · rcases List.mem_append.1 hd with hd | hd
      · exact hb.dimensions d hd
      · rw [List.mem_singleton.1 hd]
        exact ⟨List.nodup_nil, List.forall_mem_nil _⟩

/-- A hierarchy that is accepted is new to its dimension, and is put behind those that are there. -/
theorem hierarchy_eq_ok {dimension : String} {name : Option String} {hasAll : Bool}
    {levels : List String} (h : b.hierarchy dimension name hasAll levels = .ok b') :
    let uniqueName := name.elim s!"[{dimension}]" fun n => s!"[{dimension}].[{n}]"
    ∃ found k, found ∈ b.dimensions ∧ found.name = dimension ∧
      (∀ l ∈ found.hierarchies, l.uniqueName ≠ uniqueName) ∧
      HierarchyDraft.start (name.getD dimension) uniqueName hasAll levels = .ok k ∧
      b' = { b with dimensions := b.dimensions.map fun e =>
        if e.name == dimension then { e with hierarchies := e.hierarchies ++ [k] } else e } := by
  unfold CubeBuilder.hierarchy at h
  split at h
  · cases h
  · rename_i found hfound
    dsimp only at h
    split at h
    · cases h
    · rename_i hfresh
      obtain ⟨k, hk, h⟩ := bind_eq_ok.1 h
      cases h
      have hname : (found.name == dimension) = true :=
        List.find?_some (p := fun d : DimensionDraft => d.name == dimension) hfound
      refine ⟨found, k, List.mem_of_find?_eq_some hfound, eq_of_beq hname, fun l hl heq => ?_, hk, rfl⟩
      exact hfresh (List.any_eq_true.2 ⟨l, hl, beq_iff_eq.2 heq⟩)

theorem Proper.hierarchy (hb : b.Proper) {dimension : String} {name : Option String}
    {hasAll : Bool} {levels : List String}
    (h : b.hierarchy dimension name hasAll levels = .ok b') : b'.Proper := by
  obtain ⟨found, k, hfound, hfoundName, hfresh, hstart, rfl⟩ := hierarchy_eq_ok h
  obtain ⟨hkname, hk⟩ := HierarchyDraft.proper_start hstart
  have hsame : (b.dimensions.map fun e => if e.name == dimension then
      { e with hierarchies := e.hierarchies ++ [k] } else e).map (·.name) =
        b.dimensions.map (·.name) := by
    rw [List.map_map]
    refine List.map_congr_left fun e _ => ?_
    show DimensionDraft.name (if _ then _ else _) = e.name
    split <;> rfl
  refine ⟨hsame ▸ hb.distinct, fun d hd => ?_⟩
  obtain ⟨e, he, rfl⟩ := List.mem_map.1 hd
  have hproper := hb.dimensions e he
  split
  · rename_i hname
    have hname := eq_of_beq hname
    -- the dimension that was looked through is the one that is added to
    have hefound : e = found :=
      List.inj_on_of_nodup_map hb.distinct he hfound (hname.trans hfoundName.symm)
    refine ⟨?_, fun l hl => ?_⟩
    · rw [List.map_append]
      refine List.Nodup.append hproper.distinct (List.nodup_singleton _)
        (List.disjoint_singleton.2 fun hmem => ?_)
      obtain ⟨l, hl, hlname⟩ := List.mem_map.1 hmem
      exact hfresh l (hefound ▸ hl) (hlname.trans hkname)
    · rcases List.mem_append.1 hl with hl | hl
      · exact hproper.hierarchies l hl
      · rw [List.mem_singleton.1 hl]
        show k.Proper e.name
        rwa [hname]
  · exact hproper

theorem Proper.member (hb : b.Proper) {hierarchy : String} {parent : Option String} {name : String}
    (h : b.member hierarchy parent name = .ok b') : b'.Proper := by
  refine hb.updateHierarchy (fun dimension k k' hk ha => ?_) h
  obtain ⟨p, hp, ha⟩ := bind_eq_ok.1 ha
  exact hk.addMember (HierarchyDraft.mem_of_parentFor hp) ha

/-- A measure is added to the hierarchy of measures, which is declared first if there is none yet. -/
theorem measure_eq_ok {name : String} (h : b.measure name = .ok b') :
    ∃ c : CubeBuilder, (c = b ∨ (b.dimension "Measures" .measures).hierarchy "Measures" none false
        ["MeasuresLevel"] = .ok c) ∧
      c.updateHierarchy "[Measures]" (·.addMember none name .measure) = .ok b' := by
  unfold CubeBuilder.measure at h
  split at h
  · exact ⟨b, .inl rfl, h⟩
  · obtain ⟨c, hc, h⟩ := bind_eq_ok.1 h
    exact ⟨c, .inr hc, h⟩

theorem Proper.measure (hb : b.Proper) {name : String} (h : b.measure name = .ok b') :
    b'.Proper := by
  have hupdate {c : CubeBuilder} (hc : c.Proper)
      (h : c.updateHierarchy "[Measures]" (·.addMember none name .measure) = .ok b') : b'.Proper :=
    hc.updateHierarchy (fun _ _ _ hk ha => hk.addMember (by simp) ha) h
  obtain ⟨c, rfl | hc, hu⟩ := measure_eq_ok h
  · exact hupdate hb hu
  · exact hupdate ((hb.dimension _ _).hierarchy hc) hu

theorem Proper.take (hb : b.Proper) (step : BuildStep) : (b.take step).Proper := by
  unfold CubeBuilder.take
  dsimp only
  split
  · rename_i h
    cases step with
    | dimension name kind =>
      cases h
      exact hb.dimension name kind
    | hierarchy dimension name hasAll levels => exact hb.hierarchy h
    | member hierarchy parent name => exact hb.member h
    | measure name => exact hb.measure h
  · exact hb

theorem proper_foldl (hb : b.Proper) (steps : List BuildStep) : (steps.foldl take b).Proper := by
  induction steps generalizing b with
  | nil => exact hb
  | cons step steps ih => exact ih (hb.take step)

end CubeBuilder

end Olap
