import Olap.Calc.Compile
import Olap.Proofs.Evaluation.Frame
import Olap.Proofs.Outcomes

/-!
# Compiled trees are well-formed

`Calc.WellFormed cube D typed c` says of a node that its rule is the one of its operation, that the
values which it holds are within the domain `D`, and that it has the children that its operation
reads: a node that keeps results keeps those of its child under the hierarchies that the child depends
on. Compiling an expression over the domain gives a tree of such nodes (`Expr.compile_formed`).

With `typed` it also says that a node for a current member reads a calculation whose type is that of a
hierarchy. This needs types of bound calls and conversions to be as declared (`Expr.WellTyped`).

What else holds of the values in a tree is what a `Demand` asks of those in the expression, literals
and members among them (`Expr.compile_compiled`).
-/

set_option autoImplicit false

namespace Olap

/-- The rule by which calculations with the operation depend on hierarchies. -/
def Operation.rule : Operation → DependencyRule
  | constant _ | parameter .. => .never
  | currentValue | nonEmpty => .always
  | memberValue | tupleValue | drilldownMember _ => .butDepends
  | currentMember => .currentOf
  | count excludeEmpty => if excludeEmpty then .always else .anyChild
  | filter | order .. | aggregate _ => .allButFirst
  | _ => .anyChild

/-- The operations whose nodes have children of a particular kind. -/
def Operation.isParticular : Operation → Bool
  | cache _ | tupleValue | currentMember => true
  | _ => false

def ExprType.isHierarchy : ExprType → Bool
  | hierarchy _ => true
  | _ => false

/-- The type of the current member of a hierarchy of the given type. -/
def ExprType.currentMember : ExprType → ExprType
  | hierarchy s => member s
  | _ => anyMember

/-- What holds of the nodes of a compiled tree (module doc). -/
structure Calc.WellFormed (cube : Cube) (D : Domain) (typed : Prop) (c : Calc) : Prop where
  rule : c.rule = c.operation.rule
  within : c.operation.Within D
  cache : ∀ os, c.operation = .cache os →
    ∃ inner, c.children = [inner] ∧ os = (inner.dependentHierarchies cube).map (·.ordinal)
  tupleValue : c.operation = .tupleValue → ∃ t, c.children = [t]
  currentMember : c.operation = .currentMember →
    ∃ h, c.children = [h] ∧ c.type = h.type.currentMember ∧ (typed → h.type.isHierarchy = true)

abbrev Calc.Formed (cube : Cube) (D : Domain) (typed : Prop) : Calc → Prop :=
  Calc.Every (Calc.WellFormed cube D typed)

/-! ## Values that nodes hold -/

/-- What is asked of the values that the nodes of a tree hold themselves: of fixed values, and of
parameters with their defaults. -/
structure Demand where
  constant : Value → Prop
  parameter : String → Value → Prop
  null : constant .null

def Operation.Holds (H : Demand) : Operation → Prop
  | constant v => H.constant v
  | parameter name v => H.parameter name v
  | _ => True

/-- All values are within the domain. -/
def Domain.demand (D : Domain) : Demand := ⟨Value.Within D, fun _ => Value.Within D, trivial⟩

theorem Operation.within_of_holds {D : Domain} {op : Operation} (h : op.Holds D.demand) :
    op.Within D := by
  cases op <;> exact h

/-- What holds of the nodes of a tree that is compiled from an expression with such values. -/
structure Calc.Made (cube : Cube) (H : Demand) (typed : Prop) (c : Calc) : Prop where
  formed : c.WellFormed cube .everything typed
  holds : c.operation.Holds H

abbrev Calc.Compiled (cube : Cube) (H : Demand) (typed : Prop) : Calc → Prop :=
  Calc.Every (Calc.Made cube H typed)

theorem Calc.Made.wellFormed {cube : Cube} {D : Domain} {typed : Prop} {c : Calc}
    (h : c.Made cube D.demand typed) : c.WellFormed cube D typed :=
  ⟨h.formed.rule, Operation.within_of_holds h.holds, h.formed.cache, h.formed.tupleValue,
    h.formed.currentMember⟩

/-! ## Nodes -/

namespace Calc

variable {cube : Cube} {H : Demand} {typed : Prop}

theorem Compiled.node {info : CalcInfo} {op : Operation} {cs : List Calc} (hrule : info.rule = op.rule)
    (hw : op.Holds H) (hp : op.isParticular = false) (hcs : ∀ c ∈ cs, c.Compiled cube H typed) :
    (Calc.node info op cs).Compiled cube H typed := by
  refine Every.node ⟨⟨hrule, (within_everything _).self, fun os h => ?_, fun h => ?_, fun h => ?_⟩,
    hw⟩ hcs
  all_goals
    change op = _ at h
    rw [h] at hp
    cases hp

theorem compiled_constant {v : Value} (hv : H.constant v) (type : ExprType) :
    (constant v type).Compiled cube H typed := .node rfl hv rfl (List.forall_mem_nil _)

theorem compiled_memberValue {cs : List Calc} (h : ∀ c ∈ cs, c.Compiled cube H typed) :
    (memberValue cs).Compiled cube H typed := .node rfl trivial rfl h

theorem compiled_tupleValue {c : Calc} (h : c.Compiled cube H typed) :
    (tupleValue c).Compiled cube H typed :=
  Every.node ⟨⟨rfl, trivial, by rintro _ ⟨⟩, fun _ => ⟨c, rfl⟩, by rintro ⟨⟩⟩, trivial⟩ h.one

theorem compiled_currentValue : currentValue.Compiled cube H typed :=
  .node rfl trivial rfl (List.forall_mem_nil _)

theorem compiled_currentMember {c : Calc} (h : c.Compiled cube H typed)
    (ht : typed → c.type.isHierarchy = true) : (currentMember c).Compiled cube H typed := by
  refine Every.node ⟨⟨rfl, trivial, by rintro _ ⟨⟩, by rintro ⟨⟩, fun _ => ⟨c, rfl, ?_, ht⟩⟩, trivial⟩
    h.one
  show (match c.type with | .hierarchy s => .member s | _ => .anyMember) = c.type.currentMember
  cases c.type <;> rfl

theorem compiled_adapted {c : Calc} (h : c.Compiled cube H typed) (a : Adapter) (type : ExprType) :
    (adapted a c type).Compiled cube H typed := .node rfl trivial rfl h.one

/-- The node that keeps results is well-formed itself. -/
theorem wellFormed_cached (c : Calc) (D : Domain) : (c.cached cube).WellFormed cube D typed := by
  refine ⟨rfl, trivial, ?_, by rintro ⟨⟩, by rintro ⟨⟩⟩
  rintro _ ⟨⟩
  exact ⟨c, rfl, rfl⟩

theorem formed_cached {D : Domain} {c : Calc} (h : c.Formed cube D typed) :
    (c.cached cube).Formed cube D typed :=
  Every.node (wellFormed_cached c D) (List.forall_mem_singleton.2 h)

theorem compiled_cached {c : Calc} (h : c.Compiled cube H typed) :
    (c.cached cube).Compiled cube H typed :=
  Every.node ⟨wellFormed_cached c .everything, trivial⟩ h.one

theorem restyle_produces {c : Calc} (h : c.Compiled cube H typed) (accepted : List ResultStyle) :
    Produces (Compiled cube H typed) (c.restyle accepted) := by
  unfold restyle
  dsimp only
  split
  · exact .ok h
  · split
    · split
      · exact .ok (compiled_adapted h _ _)
      · split
        · exact .ok (compiled_adapted (compiled_adapted h _ _) _ _)
        · exact .error
    · split
      · exact .ok (compiled_adapted h _ _)
      · split
        · exact .ok h
        · exact .error
    · split
      · exact .ok h
      · exact .error
    · split
      · exact .ok h
      · exact .error
    · exact .error

end Calc

/-! ## Operands -/

/-- What holds of operands: they compile to well-formed trees, and if their type is that of a
hierarchy, so is the type of these trees. -/
structure Operand.Formed (cube : Cube) (H : Demand) (typed : Prop) (o : Operand) : Prop where
  tree : ∀ styles, Produces (Calc.Compiled cube H typed) (o.compile styles)
  type : typed → o.type.isHierarchy = true → ∀ styles,
    Produces (fun c => c.type.isHierarchy = true) (o.compile styles)

namespace Operand.Formed

open Calc

variable {cube : Cube} {H : Demand} {typed : Prop} {o : Operand}
variable (ho : o.Formed cube H typed) (styles : List ResultStyle)
include ho

theorem compileAs : Produces (Calc.Compiled cube H typed) (o.compileAs styles) :=
  (ho.tree styles).bind fun _ h => restyle_produces h styles

theorem hierarchy : Produces (fun c => c.Compiled cube H typed ∧ (typed → c.type.isHierarchy = true))
    (o.hierarchy styles) := by
  unfold Operand.hierarchy
  split
  · rename_i heq
    exact fun c hc =>
      ⟨ho.tree styles c hc, fun ht => ho.type ht (by rw [heq]; rfl) styles c hc⟩
  · exact (ho.tree styles).bind fun c h => .ok ⟨compiled_adapted h _ _, fun _ => rfl⟩
  · exact (ho.tree styles).bind fun c h => .ok ⟨compiled_adapted h _ _, fun _ => rfl⟩
  · exact (ho.tree styles).bind fun c h => .ok ⟨.node rfl trivial rfl h.one, fun _ => rfl⟩
  · exact .error

theorem hierarchyTree : Produces (Calc.Compiled cube H typed) (o.hierarchy styles) :=
  fun c hc => (hierarchy ho styles c hc).1

theorem member : Produces (Calc.Compiled cube H typed) (o.member styles) := by
  unfold Operand.member
  split
  · exact ho.tree styles
  · exact ho.tree styles
  · exact (hierarchy ho styles).bind fun c h => .ok (compiled_currentMember h.1 h.2)
  · exact (hierarchy ho styles).bind fun c h => .ok (compiled_currentMember h.1 h.2)
  · exact .error

theorem level : Produces (Calc.Compiled cube H typed) (o.level styles) := by
  unfold Operand.level
  split
  · exact ho.tree styles
  · exact .error

theorem tuple : Produces (Calc.Compiled cube H typed) (o.tuple styles) := by
  unfold Operand.tuple
  split
  · exact ho.tree styles
  · exact (ho.tree styles).bind fun c h => .ok (compiled_adapted h _ _)
  · exact (member ho styles).bind fun c h => .ok (compiled_adapted h _ _)
  · exact (member ho styles).bind fun c h => .ok (compiled_adapted h _ _)
  · exact .error

theorem scalar : Produces (Calc.Compiled cube H typed) (o.scalar styles) := by
  unfold Operand.scalar
  split
  · exact (ho.tree styles).bind fun c h => .ok (compiled_memberValue h.one)
  · exact (ho.tree styles).bind fun c h => .ok (compiled_tupleValue h)
  · exact (member ho styles).bind fun c h => .ok (compiled_memberValue h.one)
  · exact (member ho styles).bind fun c h => .ok (compiled_memberValue h.one)
  · split
    · exact compileAs ho _
    · exact .error

theorem double : Produces (Calc.Compiled cube H typed) (o.double styles) := by
  refine (scalar ho styles).bind fun c h => .ok ?_
  split
  · exact compiled_adapted h _ _
  · exact h

theorem list (owned : Bool) : Produces (Calc.Compiled cube H typed) (o.list styles owned) := by
  unfold Operand.list
  split
  · exact compileAs ho _
  · exact (ho.tree styles).bind fun c h => .ok (compiled_adapted h _ _)
  · exact (ho.tree styles).bind fun c h => .ok (compiled_adapted h _ _)
  · exact (member ho styles).bind fun c h => .ok (compiled_adapted h _ _)
  · exact (member ho styles).bind fun c h => .ok (compiled_adapted h _ _)
  · exact .error

theorem iterable : Produces (Calc.Compiled cube H typed) (o.iterable styles) := by
  unfold Operand.iterable
  split
  · exact compileAs ho _
  · exact list ho styles false

theorem element : Produces (Calc.Compiled cube H typed) (BoundCall.element styles o) := by
  unfold BoundCall.element
  split
  · exact list ho styles false
  · exact tuple ho styles
  · exact member ho styles

theorem converted (target : ExprType) (kind : ConversionKind) :
    Produces (Calc.Compiled cube H typed) (o.converted target kind styles) := by
  unfold Operand.converted
  split
  · exact ho.tree styles
  · exact ho.tree styles
  · exact (ho.tree styles).bind fun c h => .ok (compiled_adapted h _ _)
  · refine (scalar ho styles).bind fun c h => .ok ?_
    split <;> exact .node rfl trivial rfl h.one
  · exact .ok (compiled_constant H.null target)
  · refine (scalar ho styles).bind fun c h => .ok ?_
    split <;> exact .node rfl trivial rfl h.one
  · exact scalar ho styles
  · exact tuple ho styles
  · exact list ho styles false
  · exact member ho styles
  · exact hierarchyTree ho styles
  · exact hierarchyTree ho styles
  · exact .error

end Operand.Formed

end Olap
