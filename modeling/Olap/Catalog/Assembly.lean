import Olap.Catalog.Builder

/-!
# Assembling cubes in place

The steps of a builder as they are done to a builder that is there to be changed. A step looks at the
builder, changes it here and there, and breaks off at the first error; what it has changed by then stays
changed.
-/

set_option autoImplicit false

namespace Olap

/-- One step of assembling a cube. -/
inductive BuildStep where
  | dimension (name : String) (kind : DimensionKind)
  | hierarchy (dimension : String) (name : Option String) (hasAll : Bool) (levels : List String)
  | member (hierarchy : String) (parent : Option String) (name : String)
  | measure (name : String)
  deriving Repr

/-- Something done in place, which may break off. -/
abbrev InPlace (σ : Type) := ExceptT CatalogError (StateM σ)

namespace InPlace

variable {σ : Type}

/-- Does it: the answer, and what it has been done to. -/
def perform (x : InPlace σ Unit) (s : σ) : Except CatalogError Unit × σ := x.run.run s

/-! ## Hierarchies -/

/-- Adds a member as the last child of `parent`, or as the last root. -/
def addMember (parent : Option MemberDraft) (name : String) (kind : MemberKind) :
    InPlace HierarchyDraft Unit := do
  let h ← get
  let depth := parent.elim 0 (·.depth + 1)
  if h.levels.length ≤ depth then
    throw (.levelOutOfRange h.uniqueName name h.levels.length depth)
  let uniqueName := s!"{h.namePath parent}.[{name}]"
  if (h.member? uniqueName).isSome then throw (.duplicate uniqueName)
  let draft := ⟨name, uniqueName, kind, depth⟩
  modify fun h =>
    { h with forest :=
      match parent with
      | some p => Tree.insertUnderAll (·.uniqueName == p.uniqueName) draft h.forest
      | none => h.forest ++ [Tree.leaf draft] }

/-- Done to the first hierarchy of a given unique name, where it stands. -/
def toFirst (uniqueName : String) (x : InPlace HierarchyDraft Unit) :
    List HierarchyDraft → Option (Except CatalogError Unit × List HierarchyDraft)
  | [] => none
  | h :: hs =>
    if h.uniqueName == uniqueName then
      let (answer, h) := x.perform h
      some (answer, h :: hs)
    else (toFirst uniqueName x hs).map fun (answer, hs) => (answer, h :: hs)

/-- Done to the first hierarchy of a given unique name among those of several dimensions. -/
def toFirstIn (uniqueName : String) (x : InPlace HierarchyDraft Unit) :
    List DimensionDraft → Except CatalogError Unit × List DimensionDraft
  | [] => (.error (.hierarchyNotFound uniqueName), [])
  | d :: ds =>
    match toFirst uniqueName x d.hierarchies with
    | some (answer, hs) => (answer, { d with hierarchies := hs } :: ds)
    | none =>
      let (answer, ds) := toFirstIn uniqueName x ds
      (answer, d :: ds)

/-! ## Builders -/

/-- Done to the first hierarchy of a given unique name. -/
def toHierarchy (uniqueName : String) (x : InPlace HierarchyDraft Unit) : InPlace CubeBuilder Unit := do
  let (answer, ds) := toFirstIn uniqueName x (← get).dimensions
  modify fun b => { b with dimensions := ds }
  ofExcept answer

/-- Declares a dimension; a dimension that has been declared stays as it is. -/
def dimension (name : String) (kind : DimensionKind) : InPlace CubeBuilder Unit := do
  unless (← get).dimensions.any (·.name == name) do
    modify fun b => { b with dimensions := b.dimensions ++ [⟨name, kind, []⟩] }

/-- Declares a hierarchy of a dimension. It is finished before it is put there. -/
def hierarchy (dimension : String) (name : Option String) (hasAll : Bool) (levels : List String) :
    InPlace CubeBuilder Unit := do
  match (← get).dimensions.find? (·.name == dimension) with
  | none => throw (.dimensionNotFound dimension)
  | some d =>
    let uniqueName := name.elim s!"[{dimension}]" fun n => s!"[{dimension}].[{n}]"
    if d.hierarchies.any (·.uniqueName == uniqueName) then throw (.duplicate uniqueName)
    let h ← ofExcept (HierarchyDraft.start (name.getD dimension) uniqueName hasAll levels)
    modify fun b =>
      { b with dimensions := b.dimensions.map fun e =>
          if e.name == dimension then { e with hierarchies := e.hierarchies ++ [h] } else e }

/-- Adds a member below the member of unique name `parent`, or at the top. -/
def member (hierarchy : String) (parent : Option String) (name : String) : InPlace CubeBuilder Unit :=
  toHierarchy hierarchy do
    let parent ← ofExcept ((← get).parentFor parent)
    addMember parent name .regular

/-- Declares the dimension of measures and its hierarchy, if there is no such dimension. -/
def declareMeasures : InPlace CubeBuilder Unit := do
  unless (← get).dimensions.any (·.name == "Measures") do
    dimension "Measures" .measures
    hierarchy "Measures" none false ["MeasuresLevel"]

/-- Adds a measure. The first one brings its dimension and its hierarchy. -/
def measure (name : String) : InPlace CubeBuilder Unit := do
  declareMeasures
  toHierarchy "[Measures]" (addMember none name .measure)

end InPlace

namespace BuildStep

/-- The step, as it is done to a builder. -/
def inPlace : BuildStep → InPlace CubeBuilder Unit
  | dimension name kind => InPlace.dimension name kind
  | hierarchy of name hasAll levels => InPlace.hierarchy of name hasAll levels
  | member of parent name => InPlace.member of parent name
  | measure name => InPlace.measure name

/-- Does steps one after the other, also after errors: each step with its answer, and the builder in the
end. -/
def performAll (b : CubeBuilder) :
    List BuildStep → List (BuildStep × Except CatalogError Unit) × CubeBuilder
  | [] => ([], b)
  | step :: steps =>
    let (answer, b) := step.inPlace.perform b
    let (record, b) := performAll b steps
    ((step, answer) :: record, b)

end BuildStep

end Olap
