import Olap.Evaluation.Operation

/-!
# Evaluating calculations

`Calc.evaluate` evaluates a tree of calculations at an address. Every calculation counts towards the
limit on nesting while it is evaluated, and its evaluations are counted.
-/

set_option autoImplicit false

namespace Olap

namespace Calc

mutual

/-- Evaluates a calculation that stands at an address. -/
def evaluate (address : Address) : Calc → EvalM Value
  | node _ op children =>
    EvalM.calculation address (op.run address (evaluations address 0 children))

/-- The evaluations of children, of which the first stands at place `k`. -/
def evaluations (address : Address) (k : Nat) : List Calc → List (EvalM Value)
  | [] => []
  | c :: cs => c.evaluate (k :: address) :: evaluations address (k + 1) cs

end

end Calc

/-- Holds a set that is produced on demand in full; other values stay as they are. -/
def EvalM.held (v : Value) : EvalM Value :=
  match v with
  | .iterable s => do return .list (← materialize s)
  | v => return v

/-! ## Profiles -/

/-- How often each calculation of a tree has been evaluated. -/
inductive Profile where
  | node (name : String) (type : ExprType) (style : ResultStyle) (rule : DependencyRule)
      (calls : Nat) (children : List Profile)

namespace Profile

def calls : Profile → Nat
  | node _ _ _ _ calls _ => calls

mutual

/-- The evaluations of a tree's calculations, all together. -/
def totalCalls : Profile → Nat
  | node _ _ _ _ calls children => calls + totalCallsIn children

/-- The evaluations of several trees' calculations, all together. -/
def totalCallsIn : List Profile → Nat
  | [] => 0
  | p :: ps => p.totalCalls + totalCallsIn ps

end

mutual

/-- The first calculation of a given name, each looked at before its children. -/
def find? (wanted : String) : Profile → Option Profile
  | node name type style rule calls children =>
    if name == wanted then some (node name type style rule calls children)
    else findIn? wanted children

/-- The first calculation of a given name in several trees. -/
def findIn? (wanted : String) : List Profile → Option Profile
  | [] => none
  | p :: ps => (p.find? wanted).or (findIn? wanted ps)

end

end Profile

namespace Calc

mutual

/-- The profile of a tree that stands at an address. -/
def profile (counts : CallCounts) (address : Address) : Calc → Profile
  | node info _ children =>
    .node info.name info.type info.style info.rule (counts.getD address 0)
      (profiles counts address 0 children)

/-- The profiles of children, of which the first stands at place `k`. -/
def profiles (counts : CallCounts) (address : Address) (k : Nat) : List Calc → List Profile
  | [] => []
  | c :: cs => c.profile counts (k :: address) :: profiles counts address (k + 1) cs

end

end Calc

end Olap
