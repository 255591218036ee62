import Olap.Proofs.Evaluation.Descendants
import Olap.Proofs.Typing.Fits

/-!
# Members of a level

The members at the depth of a level are reached by two routes: a call for the members of the level looks
for members that name the level, and calls for the descendants of the roots walk to its depth. The walks
always give the members at the depth, in order. The call for the members gives the same just if no
member at another depth has a level of the same name, and so if the levels of the hierarchy have
different names, which the builder does not see to (`Cube.Built.evaluate_level`).
-/

set_option autoImplicit false

namespace Olap

/-! ## What an expression gives -/

/-- An expression gives one set of members. -/
theorem Expr.GivesMembers.unique {e : Expr} {c : Cube} {ms ns : List Member}
    (hms : e.GivesMembers c ms) (hns : e.GivesMembers c ns) : ms = ns := by
  obtain ⟨bound, hvalid, hcompiles⟩ := hms []
  obtain ⟨bound', hvalid', hcompiles'⟩ := hns []
  obtain rfl : bound = bound' := by
    rw [hvalid] at hvalid'
    cases hvalid'
    rfl
  obtain ⟨tree, htree, hruns⟩ := hcompiles Expr.anyStyles
  obtain ⟨tree', htree', hruns'⟩ := hcompiles' Expr.anyStyles
  obtain rfl : tree = tree' := by
    rw [htree] at htree'
    cases htree'
    rfl
  -- without a limit on results any state will do
  have hdepth : 0 + 1 < ({} : EngineConfig).maxEvalDepth := by decide
  have hlimit : ¬ 0 < ({} : EngineConfig).resultLimit := by decide
  obtain ⟨hlist, -⟩ := hruns ⟨c, {}, []⟩ (.start c (.memory []) {}) [0] rfl hdepth
  obtain ⟨hlist', -⟩ := hruns' ⟨c, {}, []⟩ (.start c (.memory []) {}) [0] rfl hdepth
  obtain ⟨l, hl, hrows⟩ := hlist fun h => absurd h hlimit
  obtain ⟨l', hl', hrows'⟩ := hlist' fun h => absurd h hlimit
  rw [hl] at hl'
  cases hl'
  exact List.map_injective_iff.2 (fun _ _ h => List.head_eq_of_cons_eq h) (hrows.symm.trans hrows')

/-! ## The call for the members -/

theorem Cube.HierarchiesDistinct.lookup {c : Cube} (hd : c.HierarchiesDistinct) {h : Hierarchy}
    (hh : h ∈ c.hierarchies) : c.hierarchy h.uniqueName = .ok h := by
  have hfound : (c.hierarchies.find? (·.uniqueName == h.uniqueName)).isSome = true :=
    List.find?_isSome.2 ⟨h, hh, beq_self_eq_true _⟩
  obtain ⟨k, hk⟩ := Option.isSome_iff_exists.1 hfound
  have hname : k.uniqueName = h.uniqueName :=
    eq_of_beq (List.find?_some (p := fun k : Hierarchy => k.uniqueName == h.uniqueName) hk)
  rw [hierarchy, hk, hd.eq (List.mem_of_find?_eq_some hk) hh hname]

theorem EvalM.Returns.levelMembers {env : Environment} {d : Nat} {x : EvalM Value} {l : Level}
    {h : Hierarchy} (a : Address) (hx : Returns env d x (.ok (.level l)))
    (hh : env.cube.hierarchy l.hierarchy = .ok h) :
    Returns env d (Operation.run a .levelMembers [x])
      (Value.list <$> TupleList.ofMembers (h.levelMembers l) env.config.resultLimit) :=
  hx.asLevel.bind_ok (read.bind_ok ((liftCatalog hh).bind_ok (memberList _)))

namespace Level

/-- The call for the members of the level. -/
def membersExpr (l : Level) : Expr := .call "Members" .property [.level l]

theorem cheapest_members :
    (FunctionTable.builtin.lookup "Members" .property).all Resolver.isFixed = true ∧
      (cheapest (FunctionTable.builtin.fits "Members" .property
          [.ofType (.level .unknown)])).map Definition.undescribed =
        [⟨⟨"Members", .property, .set, [.level]⟩, "", [], .declared, .members⟩] := by
  decide +kernel

/-- The call for the members of a level gives the members of its hierarchy that name it. -/
theorem evaluate_members {c : Cube} (hd : c.HierarchiesDistinct) {h : Hierarchy}
    (hh : h ∈ c.hierarchies) {l : Level} (hl : l.hierarchy = h.uniqueName) :
    l.membersExpr.GivesMembers c (h.levelMembers l) := by
  obtain ⟨hfixed, hcheapest⟩ := cheapest_members
  refine .intro fun registry => ?_
  have hargs : (Expr.validateAll .builtin [.level l]).run registry = (.ok [.level l], registry) := rfl
  have hwords : ∀ e ∈ [Expr.level l], ∀ word, e.symbol? = some word →
      ∃ r ∈ ([] : List String), r.toUpper = word.toUpper := by
    intro e he word hword
    rw [List.mem_singleton.1 he] at hword
    cases hword
  obtain ⟨description, hvalid⟩ := Expr.validate_call_exact "Members" .property [.level .unknown]
    ⟨⟨"Members", .property, .set, [.level]⟩, "", [], .declared, .members⟩ hargs hfixed rfl hcheapest
    rfl hwords
  refine ⟨_, hvalid, fun styles => ⟨_, _, _, rfl, ?_⟩⟩
  rintro env a d rfl hdepth
  refine .levelMembers a (Calc.returns_constant (.level l) _ (0 :: a) d hdepth) ?_
  rw [hl, hd.lookup hh]

end Level

/-! ## Both routes -/

/-- In a cube that has been built, with different names for its hierarchies, the calls for the
descendants of the roots of a hierarchy at one of its levels give together, root by root, the members at
the depth of the level in pre-order. The call for the members of the level gives these just if no member
at another depth has a level of the same name, as is the case where no two levels of the hierarchy
share their name. -/
theorem Cube.Built.evaluate_level {c : Cube} (hc : c.Built) (hd : c.HierarchiesDistinct)
    {h : Hierarchy} (hh : h ∈ c.hierarchies) {l : Level} (hl : l ∈ h.levels) :
    (∀ r ∈ h.roots, ((DescendantsCall.level l none).expr r).GivesMembers c
        (c.descendants r l.depth .self)) ∧
      h.roots.flatMap (fun r => c.descendants r l.depth .self) =
        h.members.filter (·.depth == l.depth) ∧
      (l.membersExpr.GivesMembers c (h.members.filter (·.depth == l.depth)) ↔
        ∀ m ∈ h.members, m.level.uniqueName = l.uniqueName → m.depth = l.depth) ∧
      ((h.levels.map (·.name)).Nodup →
        l.membersExpr.GivesMembers c (h.members.filter (·.depth == l.depth))) := by
  have hlevelled := hc.levelled hh
  have hmembers := Level.evaluate_members hd hh (hlevelled.hierarchy l hl)
  have heq := hlevelled.levelMembers_eq_iff hl
  refine ⟨fun r hr => ?_, hc.descendants_roots hh l.depth .self, ?_, fun hnames => ?_⟩
  · exact DescendantsCall.evaluate_walk hlevelled (Tree.map_value_subset h.forest hr) hl rfl
  · rw [← heq]
    refine ⟨fun hdeep => hmembers.unique hdeep, fun hsame => ?_⟩
    rwa [← hsame]
  · rw [← heq.2 fun m hm => hlevelled.depth_eq_of_uniqueName hl hnames hm]
    exact hmembers

namespace Sample

/-- Two levels of one name. -/
def homonymSteps : List BuildStep :=
  [.dimension "Store" .standard, .hierarchy "Store" none false ["Site", "Site"],
    .member "[Store]" none "Berlin", .member "[Store]" (some "[Store].[Berlin]") "North"]

theorem evaluate_homonyms : ∃ (c : Cube) (h : Hierarchy) (l : Level), c.Built ∧
    c.HierarchiesDistinct ∧ h ∈ c.hierarchies ∧ l ∈ h.levels ∧
    h.members.map (·.name) = ["Berlin", "North"] ∧
    (h.roots.flatMap fun r => c.descendants r l.depth .self).map (·.name) = ["Berlin"] ∧
    ¬ l.membersExpr.GivesMembers c (h.members.filter (·.depth == l.depth)) := by
  have hruns : (homonymSteps.foldl CubeBuilder.take (.empty "Sales")).build.toOption.map (fun c =>
      (decide (c.hierarchies.map (·.uniqueName)).Nodup, c.hierarchies.head?.map fun h =>
        (h.members.map (·.name), h.levels.head?.map fun l =>
          ((h.members.filter (·.depth == l.depth)).map (·.name),
            h.members.any fun m => m.level.uniqueName == l.uniqueName && m.depth != l.depth)))) =
      some (true, some (["Berlin", "North"], some (["Berlin"], true))) := by
    decide +kernel
  obtain ⟨c, hc, hcube⟩ := exists_ok_of_map hruns
  obtain ⟨hnames, hfirst⟩ := Prod.mk.inj hcube
  have hdistinct : (c.hierarchies.map (·.uniqueName)).Nodup := of_decide_eq_true hnames
  obtain ⟨h, hh, hhierarchy⟩ := Option.map_eq_some_iff.1 hfirst
  obtain ⟨hmembers, htop⟩ := Prod.mk.inj hhierarchy
  obtain ⟨l, hl, hlevel⟩ := Option.map_eq_some_iff.1 htop
  obtain ⟨hdeep, hother⟩ := Prod.mk.inj hlevel
  have hbuilt : c.Built := ⟨"Sales", homonymSteps, hc⟩
  have hmem := List.mem_of_head? hh
  obtain ⟨-, hwalks, hiff, -⟩ := hbuilt.evaluate_level hdistinct hmem (List.mem_of_head? hl)
  refine ⟨c, h, l, hbuilt, hdistinct, hmem, List.mem_of_head? hl, hmembers, ?_, fun hgives => ?_⟩
  · rw [hwalks, hdeep]
  · obtain ⟨m, hm, htest⟩ := List.any_eq_true.1 hother
    rw [Bool.and_eq_true, beq_iff_eq, bne_iff_ne] at htest
    exact htest.2 (hiff.1 hgives m hm htest.1)

end Sample

end Olap
