/-!
# Levels and members

A member is one coordinate on a hierarchy. It knows its level and all its ancestors, so that the
question whether one member lies below another is answered from the two members alone. Levels and
members are identified by their unique names: `==` compares nothing else.
-/

set_option autoImplicit false

namespace Olap

/-- The kinds of dimension. -/
inductive DimensionKind where
  | standard
  | time
  | measures
  deriving DecidableEq, Repr

/-- All kinds of dimension. -/
def DimensionKind.all : List DimensionKind := [standard, time, measures]

/-- The name under which a kind of dimension is reported. -/
def DimensionKind.name : DimensionKind → String
  | .standard => "Standard"
  | .time => "Time"
  | .measures => "Measures"

/-- The kinds of member. -/
inductive MemberKind where
  | regular
  /-- The single top member of a hierarchy with an "all" level. -/
  | all
  | measure
  deriving DecidableEq, Repr

/-- The name under which a kind of member is reported. -/
def MemberKind.name : MemberKind → String
  | .regular => "Regular"
  | .all => "All"
  | .measure => "Measure"

/-- One level of a hierarchy. -/
structure Level where
  name : String
  uniqueName : String
  /-- The unique name of the hierarchy that the level belongs to. -/
  hierarchy : String
  /-- The position of that hierarchy in its cube. -/
  hierarchyOrdinal : Nat
  /-- The distance from the top level. -/
  depth : Nat
  isAll : Bool
  deriving Repr

instance : BEq Level := ⟨fun l k => l.uniqueName == k.uniqueName⟩

/-- What a member is apart from its ancestors. -/
structure MemberNode where
  name : String
  uniqueName : String
  level : Level
  kind : MemberKind
  /-- The member's position in the pre-order of its hierarchy. -/
  ordinal : Nat
  deriving Repr

/-- A member together with its ancestors, the parent first. -/
structure Member extends MemberNode where
  lineage : List MemberNode
  deriving Repr

instance : BEq Member := ⟨fun m n => m.uniqueName == n.uniqueName⟩

namespace Member

theorem beq_def (m n : Member) : (m == n) = (m.uniqueName == n.uniqueName) := rfl

def depth (m : Member) : Nat := m.level.depth

/-- The unique name of the member's hierarchy. -/
def hierarchy (m : Member) : String := m.level.hierarchy

/-- The position of the member's hierarchy in its cube. -/
def hierarchyOrdinal (m : Member) : Nat := m.level.hierarchyOrdinal

def isAll (m : Member) : Bool := m.kind == .all

def isMeasure (m : Member) : Bool := m.kind == .measure

/-- The member just above, if this is not a root. -/
def parent? (m : Member) : Option Member :=
  match m.lineage with
  | [] => none
  | p :: above => some ⟨p, above⟩

/-- The members that a list of ancestors stands for, the lowest first. -/
def ofLineage : List MemberNode → List Member
  | [] => []
  | p :: above => ⟨p, above⟩ :: ofLineage above

/-- All ancestors, from the parent up to the root. -/
def ancestors (m : Member) : List Member := ofLineage m.lineage

/-- Whether a chain of nodes, from below upwards, meets the member `top` before it has risen above
`top`'s depth. -/
def climbsTo (top : Member) : List MemberNode → Bool
  | [] => false
  | n :: above =>
    if n.uniqueName == top.uniqueName then true
    else if n.level.depth < top.depth then false
    else climbsTo top above

/-- Whether `m` is `top` or one of its descendants. -/
def isWithin (m top : Member) : Bool := climbsTo top (m.toMemberNode :: m.lineage)

end Member

end Olap
