import Olap.Function.Definition

/-!
# Conversions of arguments

An argument of another category than its parameter has to be converted, at a cost that depends on the two
categories. Arguments are matched with parameters one by one, and the costs are added up.
-/

set_option autoImplicit false

namespace Olap

/-- The conversion of one argument. -/
structure Conversion where
  /-- The place of the argument. -/
  ordinal : Nat
  source : ExprType
  target : Category
  cost : Nat
  kind : ConversionKind
  deriving DecidableEq, Repr

namespace Conversion

/-- Refuses a conversion that the categories allow but the operand does not: a dimension with several
hierarchies stands for none of them. -/
def checkValid (c : Conversion) : Except ResolutionError Unit :=
  match c.source with
  | .dimension s =>
    if (c.target = .hierarchy ∨ c.target = .member) ∧ s.hierarchy = none then
      let name := s.dimension.getD "?"
      .error (.invalidConversion .dimension c.target
        s!"dimension {name} has more than one hierarchy")
    else .ok ()
  | _ => .ok ()

/-- The type of the argument once it has been converted. -/
def targetType (c : Conversion) : ExprType :=
  let scope := c.source.scope
  match c.target, c.source with
  | .member, _ => .member scope
  | .tuple, _ => .tuple [scope]
  | .set, .tuple scopes => .set (.tuple scopes)
  | .set, _ => .set (.member scope)
  | .hierarchy, _ => .hierarchy scope
  | target, _ => .ofCategory target

end Conversion

/-- The total cost of passing arguments of the given types, of which the first stands at `ordinal`,
to parameters, with the conversions that they need; nothing if one of them cannot be converted. -/
def matchFrom (ordinal : Nat) : List Category → List ExprType → Option (Nat × List Conversion)
  | [], [] => some (0, [])
  | p :: ps, t :: ts =>
    if t.category = p then matchFrom (ordinal + 1) ps ts
    else do
      let cost ← t.category.conversionCost? p
      let (total, conversions) ← matchFrom (ordinal + 1) ps ts
      return (cost + total, ⟨ordinal, t, p, cost, t.category.conversionTo p⟩ :: conversions)
  | _, _ => none

/-- The total cost of passing arguments of the given types to parameters, with the conversions that
they need. -/
def matchParameters (parameters : List Category) (arguments : List ExprType) :
    Option (Nat × List Conversion) :=
  matchFrom 0 parameters arguments

end Olap
