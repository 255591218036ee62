import Olap.Diagnostic

/-!
# Catalog errors

What can go wrong while a cube is assembled or searched.
-/

set_option autoImplicit false

namespace Olap

/-- A failure to assemble a cube or to find one of its objects. -/
inductive CatalogError where
  | memberNotFound (name : String)
  | hierarchyNotFound (name : String)
  | dimensionNotFound (name : String)
  | duplicate (name : String)
  | emptyHierarchy (name : String)
  | levelOutOfRange (hierarchy member : String) (levels depth : Nat)
  deriving DecidableEq, Repr

namespace CatalogError

/-- The name of the kind of failure. -/
def kind : CatalogError → String
  | memberNotFound _ => "MemberNotFound"
  | hierarchyNotFound _ => "HierarchyNotFound"
  | dimensionNotFound _ => "DimensionNotFound"
  | duplicate _ => "Duplicate"
  | emptyHierarchy _ => "EmptyHierarchy"
  | levelOutOfRange .. => "LevelOutOfRange"

def message : CatalogError → String
  | memberNotFound name => s!"Member '{name}' not found"
  | hierarchyNotFound name => s!"Hierarchy '{name}' not found"
  | dimensionNotFound name => s!"Dimension '{name}' not found"
  | duplicate name => s!"Duplicate catalog object '{name}'"
  | emptyHierarchy name => s!"Hierarchy '{name}' has no members"
  | levelOutOfRange hierarchy member levels depth =>
    s!"Hierarchy '{hierarchy}' has {levels} levels, cannot place member '{member}' at depth {depth}"

def code : CatalogError → ErrorCode
  | memberNotFound _ => .memberNotFound
  | hierarchyNotFound _ | dimensionNotFound _ => .hierarchyNotFound
  | duplicate _ | emptyHierarchy _ | levelOutOfRange .. => .inconsistentCatalog

def toQueryError (e : CatalogError) : QueryError := { code := e.code, message := e.message }

end CatalogError

end Olap
