import Olap.Calc.Basic

/-!
# Dependency analysis

A calculation depends on a hierarchy if its result may change with the current member there. What it
does not depend on need not be looked at when a kept result is used again.
-/

set_option autoImplicit false

namespace Olap

/-- What a calculation's dependence is derived from: whether a child depends on the hierarchy, and
the type of its result. -/
structure ChildDependency where
  depends : Bool
  type : ExprType

/-- Whether a calculation depends on `h`, by its rule. -/
def DependencyRule.depends (rule : DependencyRule) (h : Hierarchy) (cs : List ChildDependency) :
    Bool :=
  match rule with
  | anyChild => cs.any (·.depends)
  | allButFirst =>
    match cs with
    | [] => false
    | first :: rest =>
      first.depends || (!first.type.uses h true && rest.any (·.depends))
  | butDepends => cs.any (·.depends) || !cs.any (·.type.uses h true)
  | currentOf => cs.head?.any fun c => c.depends || c.type.uses h false
  | always => true
  | never => false

namespace Calc

mutual

/-- Whether the result may change with the current member of `h`. -/
def dependsOn (h : Hierarchy) : Calc → Bool
  | node info _ children => info.rule.depends h (dependencies h children)

/-- What is known about the dependence of several calculations. -/
def dependencies (h : Hierarchy) : List Calc → List ChildDependency
  | [] => []
  | c :: cs => ⟨c.dependsOn h, c.type⟩ :: dependencies h cs

end

/-- The hierarchies that a calculation depends on, in their order. -/
def dependentHierarchies (c : Calc) (cube : Cube) : List Hierarchy :=
  cube.hierarchies.filter c.dependsOn

/-- Keeps the results of a calculation for every combination of members that it depends on. -/
def cached (c : Calc) (cube : Cube) : Calc :=
  (plain "Cache" c.type (.cache ((c.dependentHierarchies cube).map (·.ordinal))) [c]).withStyle
    c.style

end Calc

end Olap
