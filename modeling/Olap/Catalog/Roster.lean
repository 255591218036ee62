import Olap.Catalog.Builder

/-!
# Hierarchies as lists of drafts

The members of a hierarchy that is being assembled stand in one list, in the order in which they were
added, each with the place of its parent in the list. The finished hierarchy comes of a walk over the
list: a stack holds the places that are still to be visited, and a member is finished when its place is
taken off the stack.

What is answered is optional here: `none` stands for an access outside of a list, or for a walk that has
run out of rounds.
-/

set_option autoImplicit false

namespace Olap

/-- A member before its hierarchy is complete, with the place of its parent. -/
structure RosterEntry extends MemberDraft where
  parent : Option Nat
  deriving DecidableEq, Repr

/-- A hierarchy that members are still added to, as the list of its members. -/
structure Roster where
  name : String
  uniqueName : String
  hasAll : Bool
  levels : List String
  /-- The members, in the order in which they were added. -/
  members : List RosterEntry
  /-- The place of each member, by its unique name. -/
  index : List (String × Nat)
  deriving Repr

/-- What a finished hierarchy consists of when its members are listed. -/
structure Listing where
  name : String
  uniqueName : String
  dimension : String
  kind : DimensionKind
  ordinal : Nat
  hasAll : Bool
  levels : List Level
  members : List Member
  roots : List Member
  defaultMember : Member

/-- A member that is to be added to a hierarchy. -/
inductive Addition where
  | member (parent : Option String) (name : String)
  | measure (name : String)
  deriving Repr

/-- Adds a member. -/
def HierarchyDraft.add (h : HierarchyDraft) : Addition → Except CatalogError HierarchyDraft
  | .member parent name => do h.addMember (← h.parentFor parent) name .regular
  | .measure name => h.addMember none name .measure

namespace Listing

/-- The members just below a member. -/
def children (l : Listing) (m : Member) : List Member :=
  l.members.filter fun n => n.parent?.any (·.uniqueName == m.uniqueName)

end Listing

/-- The hierarchy with its members listed. -/
def Hierarchy.listing (h : Hierarchy) : Listing :=
  ⟨h.name, h.uniqueName, h.dimension, h.kind, h.ordinal, h.hasAll, h.levels, h.members, h.roots,
    h.defaultMember⟩

namespace Roster

/-! ## Growth -/

/-- The entry at the place of a parent, if there is to be a parent. -/
def entryAt (r : Roster) : Option Nat → Option (Option RosterEntry)
  | some p => r.members[p]?.map some
  | none => some none

/-- What the unique names of the members below `parent` start with. -/
def namePath (r : Roster) : Option RosterEntry → String
  | some p => if p.kind = .all then r.uniqueName else p.uniqueName
  | none => r.uniqueName

/-- Adds a member at the end of the list. -/
def addMember (r : Roster) (parent : Option Nat) (name : String) (kind : MemberKind) :
    Option (Except CatalogError Roster) :=
  (r.entryAt parent).map fun above =>
    let depth := above.elim 0 (·.depth + 1)
    if r.levels.length ≤ depth then
      .error (.levelOutOfRange r.uniqueName name r.levels.length depth)
    else
      let uniqueName := s!"{r.namePath above}.[{name}]"
      if (r.index.lookup uniqueName).isSome then .error (.duplicate uniqueName)
      else
        .ok { r with
          members := r.members ++ [⟨⟨name, uniqueName, kind, depth⟩, parent⟩]
          index := (uniqueName, r.members.length) :: r.index }

/-- A hierarchy without members, or with the "all" member alone. -/
def start (display uniqueName : String) (hasAll : Bool) (levels : List String) :
    Option (Except CatalogError Roster) :=
  if hasAll then
    addMember ⟨display, uniqueName, true, "(All)" :: levels, [], []⟩ none s!"All {display}s" .all
  else some (.ok ⟨display, uniqueName, false, levels, [], []⟩)

/-- The place of the parent that a new member gets. The "all" member is the first that was added. -/
def parentFor (r : Roster) : Option String → Except CatalogError (Option Nat)
  | some p =>
    match r.index.lookup p with
    | some i => .ok (some i)
    | none => .error (.memberNotFound p)
  | none => .ok (if r.hasAll then some 0 else none)

/-- Adds a member. -/
def add (r : Roster) : Addition → Option (Except CatalogError Roster)
  | .member parent name =>
    match r.parentFor parent with
    | .ok place => r.addMember place name .regular
    | .error e => some (.error e)
  | .measure name => r.addMember none name .measure

/-! ## The walk -/

/-- The finished levels, top first. -/
def buildLevels (r : Roster) (ordinal : Nat) : List Level :=
  r.levels.mapIdx fun depth name =>
    ⟨name, s!"{r.uniqueName}.[{name}]", r.uniqueName, ordinal, depth, r.hasAll && depth == 0⟩

/-- Notes the place of an entry with its parent, or among those at the top. -/
def note (found : List (List Nat) × List Nat) (entry : RosterEntry × Nat) :
    Option (List (List Nat) × List Nat) :=
  match entry.1.parent with
  | some p =>
    if p < found.1.length then some (found.1.modify p (· ++ [entry.2]), found.2) else none
  | none => some (found.1, found.2 ++ [entry.2])

/-- The places just below each place, and those at the top, noted in one pass over the list. -/
def childIndex (r : Roster) : Option (List (List Nat) × List Nat) :=
  r.members.zipIdx.foldlM note (List.replicate r.members.length [], [])

/-- The ancestors of what stands below a place: the member that has been finished there and those
above it. -/
def lineageAt (built : List (Option Member)) : Option Nat → Option (List MemberNode)
  | some p => built[p]?.map fun m => m.elim [] fun m => m.toMemberNode :: m.lineage
  | none => some []

/-- Visits the places on the stack. Each is taken off, its member is finished and put behind those that
are, and the places below it take its place on the stack. -/
def walk (levels : List Level) (members : List RosterEntry) (children : List (List Nat)) :
    Nat → List Nat → List (Option Member) → List Member → Option (List Member)
  | _, [], _, ordered => some ordered
  | 0, _ :: _, _, _ => none
  | rounds + 1, i :: stack, built, ordered => do
    let d ← members[i]?
    let level ← levels[d.depth]?
    let lineage ← lineageAt built d.parent
    let below ← children[i]?
    let m : Member := ⟨⟨d.name, d.uniqueName, level, d.kind, ordered.length⟩, lineage⟩
    walk levels members children rounds (below ++ stack) (built.set i (some m)) (ordered ++ [m])

/-- The finished hierarchy; there is none without members. A member is visited once. -/
def build (r : Roster) (dimension : String) (kind : DimensionKind) (ordinal : Nat) :
    Option (Except CatalogError Listing) := do
  let levels := r.buildLevels ordinal
  let (children, tops) ← r.childIndex
  let count := r.members.length
  let members ← walk levels r.members children count tops (List.replicate count none) []
  let roots := members.filter (·.parent?.isNone)
  return match roots with
    | m :: _ =>
      .ok ⟨r.name, r.uniqueName, dimension, kind, ordinal, r.hasAll, levels, members, roots, m⟩
    | [] => .error (.emptyHierarchy r.uniqueName)

end Roster

end Olap
