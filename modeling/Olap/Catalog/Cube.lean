import Olap.Catalog.Error
import Olap.Catalog.Member
import Olap.Catalog.Tree

/-!
# Cubes

A cube is an ordered list of dimensions, each with its hierarchies; a hierarchy is a list of levels
and a nonempty forest of members. The lists of members, roots and children that a hierarchy offers
are all read off its forest.
-/

set_option autoImplicit false

namespace Olap

/-- A forest of members arranged in levels. -/
structure Hierarchy where
  name : String
  uniqueName : String
  /-- The unique name of the dimension that the hierarchy belongs to. -/
  dimension : String
  kind : DimensionKind
  /-- The position of this hierarchy in its cube. -/
  ordinal : Nat
  hasAll : Bool
  levels : List Level
  forest : List (Tree Member)
  forest_ne_nil : forest ≠ []

instance : BEq Hierarchy := ⟨fun h k => h.uniqueName == k.uniqueName⟩

namespace Hierarchy

/-- All members in pre-order. -/
def members (h : Hierarchy) : List Member := Tree.preorderAll h.forest

/-- The members without a parent. -/
def roots (h : Hierarchy) : List Member := h.forest.map Tree.value

/-- The member that stands for the hierarchy where none is named: its first root. -/
def defaultMember (h : Hierarchy) : Member := (h.forest.head h.forest_ne_nil).value

/-- The subtree below a member of the hierarchy. -/
def subtree? (h : Hierarchy) (m : Member) : Option (Tree Member) :=
  Tree.findIn? (· == m) h.forest

/-- The members just below a member; none if the hierarchy does not hold it. -/
def children (h : Hierarchy) (m : Member) : List Member :=
  ((h.subtree? m).elim [] Tree.children).map Tree.value

/-- The level of a given name or unique name. -/
def level? (h : Hierarchy) (name : String) : Option Level :=
  h.levels.find? fun l => l.name == name || l.uniqueName == name

/-- The members of a level, in pre-order. -/
def levelMembers (h : Hierarchy) (l : Level) : List Member :=
  h.members.filter (·.level == l)

/-- The member of a given unique name. -/
def member? (h : Hierarchy) (name : String) : Option Member :=
  h.members.find? (·.uniqueName == name)

end Hierarchy

/-- A dimension with its hierarchies. -/
structure Dimension where
  name : String
  uniqueName : String
  kind : DimensionKind
  hierarchies : List Hierarchy

instance : BEq Dimension := ⟨fun d e => d.uniqueName == e.uniqueName⟩

namespace Dimension

def isMeasures (d : Dimension) : Bool := d.kind == .measures

/-- The hierarchy that a bare reference to the dimension denotes: its only one. -/
def singleHierarchy? (d : Dimension) : Option Hierarchy :=
  match d.hierarchies with
  | [h] => some h
  | _ => none

end Dimension

/-- The catalog that queries are evaluated against. -/
structure Cube where
  name : String
  dimensions : List Dimension

namespace Cube

/-- All hierarchies; each stands at the position that is its ordinal. -/
def hierarchies (c : Cube) : List Hierarchy := c.dimensions.flatMap (·.hierarchies)

def hierarchyAt? (c : Cube) (ordinal : Nat) : Option Hierarchy := c.hierarchies[ordinal]?

/-- The hierarchy of a given unique name. -/
def hierarchy (c : Cube) (name : String) : Except CatalogError Hierarchy :=
  match c.hierarchies.find? (·.uniqueName == name) with
  | some h => .ok h
  | none => .error (.hierarchyNotFound name)

/-- The dimension of a given name or unique name. -/
def dimension (c : Cube) (name : String) : Except CatalogError Dimension :=
  match c.dimensions.find? fun d => d.name == name || d.uniqueName == name with
  | some d => .ok d
  | none => .error (.dimensionNotFound name)

/-- The member of a given unique name; where hierarchies share the name, that of the last one. -/
def member (c : Cube) (name : String) : Except CatalogError Member :=
  match c.hierarchies.reverse.findSome? (·.member? name) with
  | some m => .ok m
  | none => .error (.memberNotFound name)

/-- The hierarchy that a member belongs to. -/
def hierarchyOf? (c : Cube) (m : Member) : Option Hierarchy := c.hierarchyAt? m.hierarchyOrdinal

/-- The hierarchy that a level belongs to. -/
def levelHierarchy? (c : Cube) (l : Level) : Option Hierarchy := c.hierarchyAt? l.hierarchyOrdinal

/-- The members just below a member. -/
def children (c : Cube) (m : Member) : List Member :=
  (c.hierarchyOf? m).elim [] (·.children m)

/-- The members of a level, in pre-order. -/
def levelMembers (c : Cube) (l : Level) : List Member :=
  (c.levelHierarchy? l).elim [] (·.levelMembers l)

/-- The first hierarchy of a measures dimension. -/
def measuresHierarchy? (c : Cube) : Option Hierarchy :=
  c.hierarchies.find? (·.kind == .measures)

/-- The default member of every hierarchy, in the order of the hierarchies. -/
def defaultMembers (c : Cube) : List Member := c.hierarchies.map (·.defaultMember)

end Cube

end Olap
