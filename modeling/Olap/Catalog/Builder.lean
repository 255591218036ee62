import Olap.Catalog.Cube

/-!
# Assembling cubes

A `CubeBuilder` collects dimensions, hierarchies, members and measures, refusing what would not fit;
`CubeBuilder.build` turns the result into a cube, numbering the members of each hierarchy in
pre-order. A step that is refused leaves the builder as it was.
-/

set_option autoImplicit false

namespace Olap

/-- A member before its hierarchy is complete. -/
structure MemberDraft where
  name : String
  uniqueName : String
  kind : MemberKind
  depth : Nat
  deriving DecidableEq, Repr

/-- A hierarchy that members are still added to. -/
structure HierarchyDraft where
  name : String
  uniqueName : String
  hasAll : Bool
  levels : List String
  forest : List (Tree MemberDraft)
  deriving Repr

/-- A dimension that hierarchies are still added to. -/
structure DimensionDraft where
  name : String
  kind : DimensionKind
  hierarchies : List HierarchyDraft
  deriving Repr

/-- A cube that is still being assembled. -/
structure CubeBuilder where
  name : String
  dimensions : List DimensionDraft
  deriving Repr

namespace HierarchyDraft

def members (h : HierarchyDraft) : List MemberDraft := Tree.preorderAll h.forest

/-- The member of a given unique name. -/
def member? (h : HierarchyDraft) (name : String) : Option MemberDraft :=
  h.members.find? (·.uniqueName == name)

/-- What the unique names of the members below `parent` start with. The "all" member does not show
in the names of those below it. -/
def namePath (h : HierarchyDraft) : Option MemberDraft → String
  | some p => if p.kind = .all then h.uniqueName else p.uniqueName
  | none => h.uniqueName

/-- Adds a member as the last child of `parent`, or as the last root. -/
def addMember (h : HierarchyDraft) (parent : Option MemberDraft) (name : String)
    (kind : MemberKind) : Except CatalogError HierarchyDraft :=
  let depth := parent.elim 0 (·.depth + 1)
  if h.levels.length ≤ depth then
    .error (.levelOutOfRange h.uniqueName name h.levels.length depth)
  else
    let uniqueName := s!"{h.namePath parent}.[{name}]"
    if (h.member? uniqueName).isSome then .error (.duplicate uniqueName)
    else
      let draft := ⟨name, uniqueName, kind, depth⟩
      .ok { h with forest :=
        match parent with
        | some p => Tree.insertUnderAll (·.uniqueName == p.uniqueName) draft h.forest
        | none => h.forest ++ [Tree.leaf draft] }

/-- A hierarchy without members, or with the "all" member alone. -/
def start (display uniqueName : String) (hasAll : Bool) (levels : List String) :
    Except CatalogError HierarchyDraft :=
  if hasAll then
    addMember ⟨display, uniqueName, true, "(All)" :: levels, []⟩ none s!"All {display}s" .all
  else .ok ⟨display, uniqueName, false, levels, []⟩

/-- The parent that a new member gets: the named one; without a name the "all" member, if the
hierarchy has one. -/
def parentFor (h : HierarchyDraft) : Option String → Except CatalogError (Option MemberDraft)
  | some p =>
    match h.member? p with
    | some m => .ok (some m)
    | none => .error (.memberNotFound p)
  | none => .ok (if h.hasAll then h.members.head? else none)

/-- The finished levels, top first. -/
def buildLevels (h : HierarchyDraft) (ordinal : Nat) : List Level :=
  h.levels.mapIdx fun depth name =>
    ⟨name, s!"{h.uniqueName}.[{name}]", h.uniqueName, ordinal, depth, h.hasAll && depth == 0⟩

mutual

/-- Numbers a tree in pre-order from `next` on, giving each node its level and its ancestors;
`level` is the level of the top and `below` are the levels under it. -/
def buildTree (level : Level) (below : List Level) (above : List MemberNode) (next : Nat) :
    Tree MemberDraft → Tree Member × Nat
  | .node d ts =>
    let self : MemberNode := ⟨d.name, d.uniqueName, level, d.kind, next⟩
    let (children, next) := buildForest below (self :: above) (next + 1) ts
    (.node ⟨self, above⟩ children, next)

/-- Numbers the trees of a forest one after the other. The tops take the first of the levels. -/
def buildForest (levels : List Level) (above : List MemberNode) (next : Nat) :
    List (Tree MemberDraft) → List (Tree Member) × Nat
  | [] => ([], next)
  | t :: ts =>
    match levels with
    | [] => ([], next)
    | level :: below =>
      let (tree, next) := buildTree level below above next t
      let (trees, next) := buildForest levels above next ts
      (tree :: trees, next)

end

/-- The finished hierarchy; there is none without members. -/
def build (h : HierarchyDraft) (dimension : String) (kind : DimensionKind) (ordinal : Nat) :
    Except CatalogError Hierarchy :=
  let levels := h.buildLevels ordinal
  let forest := (buildForest levels [] 0 h.forest).1
  if nonempty : forest ≠ [] then
    .ok ⟨h.name, h.uniqueName, dimension, kind, ordinal, h.hasAll, levels, forest, nonempty⟩
  else .error (.emptyHierarchy h.uniqueName)

end HierarchyDraft

namespace DimensionDraft

def uniqueName (d : DimensionDraft) : String := s!"[{d.name}]"

/-- Finishes hierarchies in order, giving them consecutive ordinals. -/
def buildHierarchies (dimension : String) (kind : DimensionKind) (next : Nat) :
    List HierarchyDraft → Except CatalogError (List Hierarchy)
  | [] => .ok []
  | h :: hs => do
    let first ← h.build dimension kind next
    let rest ← buildHierarchies dimension kind (next + 1) hs
    return first :: rest

/-- The finished dimension, whose hierarchies are numbered from `next` on. -/
def build (d : DimensionDraft) (next : Nat) : Except CatalogError Dimension := do
  let hierarchies ← buildHierarchies d.uniqueName d.kind next d.hierarchies
  return ⟨d.name, d.uniqueName, d.kind, hierarchies⟩

end DimensionDraft

namespace CubeBuilder

/-- A builder that nothing has been added to. -/
def empty (name : String) : CubeBuilder := ⟨name, []⟩

/-- Declares a dimension; a dimension that has been declared stays as it is. -/
def dimension (b : CubeBuilder) (name : String) (kind : DimensionKind) : CubeBuilder :=
  if b.dimensions.any (·.name == name) then b
  else { b with dimensions := b.dimensions ++ [⟨name, kind, []⟩] }

/-- Declares a hierarchy of a dimension. Without a name it is the dimension's default hierarchy and
shares its unique name. -/
def hierarchy (b : CubeBuilder) (dimension : String) (name : Option String) (hasAll : Bool)
    (levels : List String) : Except CatalogError CubeBuilder :=
  match b.dimensions.find? (·.name == dimension) with
  | none => .error (.dimensionNotFound dimension)
  | some d =>
    let uniqueName := name.elim s!"[{dimension}]" fun n => s!"[{dimension}].[{n}]"
    if d.hierarchies.any (·.uniqueName == uniqueName) then .error (.duplicate uniqueName)
    else do
      let h ← HierarchyDraft.start (name.getD dimension) uniqueName hasAll levels
      return { b with dimensions := b.dimensions.map fun e =>
        if e.name == dimension then { e with hierarchies := e.hierarchies ++ [h] } else e }

/-- All hierarchies, in the order of their dimensions. -/
def hierarchies (b : CubeBuilder) : List HierarchyDraft := b.dimensions.flatMap (·.hierarchies)

/-- Changes the first hierarchy of a given unique name. -/
def updateFirst (uniqueName : String) (f : HierarchyDraft → Except CatalogError HierarchyDraft) :
    List HierarchyDraft → Except CatalogError (Option (List HierarchyDraft))
  | [] => .ok none
  | h :: hs =>
    if h.uniqueName == uniqueName then do return some ((← f h) :: hs)
    else do return (← updateFirst uniqueName f hs).map (h :: ·)

/-- Changes the first hierarchy of a given unique name among those of several dimensions. -/
def updateFirstIn (uniqueName : String) (f : HierarchyDraft → Except CatalogError HierarchyDraft) :
    List DimensionDraft → Except CatalogError (List DimensionDraft)
  | [] => .error (.hierarchyNotFound uniqueName)
  | d :: ds => do
    match ← updateFirst uniqueName f d.hierarchies with
    | some hs => return { d with hierarchies := hs } :: ds
    | none => return d :: (← updateFirstIn uniqueName f ds)

/-- Changes the first hierarchy of a given unique name. -/
def updateHierarchy (b : CubeBuilder) (uniqueName : String)
    (f : HierarchyDraft → Except CatalogError HierarchyDraft) : Except CatalogError CubeBuilder := do
  return { b with dimensions := ← updateFirstIn uniqueName f b.dimensions }

/-- Adds a member below the member of unique name `parent`, or at the top. At the top of a hierarchy
with an "all" level that is below the "all" member. -/
def member (b : CubeBuilder) (hierarchy : String) (parent : Option String) (name : String) :
    Except CatalogError CubeBuilder :=
  b.updateHierarchy hierarchy fun h => do
    h.addMember (← h.parentFor parent) name .regular

/-- Adds a measure. The dimension of measures is declared with the first one. -/
def measure (b : CubeBuilder) (name : String) : Except CatalogError CubeBuilder := do
  let b ←
    if b.dimensions.any (·.name == "Measures") then .ok b
    else (b.dimension "Measures" .measures).hierarchy "Measures" none false ["MeasuresLevel"]
  b.updateHierarchy "[Measures]" (·.addMember none name .measure)

/-- Finishes dimensions in order; hierarchies are numbered across them, from `next` on. -/
def buildDimensions (next : Nat) : List DimensionDraft → Except CatalogError (List Dimension)
  | [] => .ok []
  | d :: ds => do
    let first ← d.build next
    let rest ← buildDimensions (next + d.hierarchies.length) ds
    return first :: rest

/-- The finished cube. -/
def build (b : CubeBuilder) : Except CatalogError Cube := do
  return ⟨b.name, ← buildDimensions 0 b.dimensions⟩

end CubeBuilder

end Olap
