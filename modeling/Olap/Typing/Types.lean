import Olap.Catalog.Cube
import Olap.Typing.Category

/-!
# Types of expressions

The type of a member, tuple, set, level, hierarchy or dimension carries scopes, which say what is
known beforehand about where its members come from. Dependency analysis asks a type whether its
values definitely, or possibly, lie on a hierarchy.
-/

set_option autoImplicit false

namespace Olap

/-- What is known about the origin of a dimensional value. -/
structure Scope where
  /-- The unique name of the dimension. -/
  dimension : Option String
  /-- The unique name of the hierarchy. -/
  hierarchy : Option String
  deriving DecidableEq, Repr

namespace Scope

/-- Nothing is known. -/
def unknown : Scope := ⟨none, none⟩

def ofHierarchy (h : Hierarchy) : Scope := ⟨some h.dimension, some h.uniqueName⟩

/-- The scope of a dimension; its hierarchy is known if there is only one. -/
def ofDimension (d : Dimension) : Scope :=
  ⟨some d.uniqueName, d.singleHierarchy?.map (·.uniqueName)⟩

/-- The part of a unique name up to its first dot between brackets. -/
def firstPart : List Char → List Char
  | [] => []
  | ']' :: '.' :: '[' :: _ => [']']
  | c :: cs => c :: firstPart cs

/-- The scope of a level. The unique name of a hierarchy starts with that of its dimension. -/
def ofLevel (l : Level) : Scope :=
  ⟨some (String.ofList (firstPart l.hierarchy.toList)), some l.hierarchy⟩

def ofMember (m : Member) : Scope := ofLevel m.level

/-- Whether a value of this scope lies on `h`. With `definitely`, the scope has to say so; without,
it must not exclude it. -/
def uses (s : Scope) (h : Hierarchy) (definitely : Bool) : Bool :=
  match s.hierarchy, s.dimension with
  | some name, _ => name == h.uniqueName
  | none, some d => !definitely && d == h.dimension
  | none, none => !definitely

/-- What two scopes both say. -/
def common (s t : Scope) : Scope where
  dimension := if s.dimension = t.dimension then s.dimension else none
  hierarchy := if s.hierarchy = t.hierarchy then s.hierarchy else none

def text (s : Scope) : String := (s.hierarchy.or s.dimension).getD "?"

end Scope

/-- The type of an expression. -/
inductive ExprType where
  /-- Any scalar. -/
  | scalar
  | boolean
  | numeric
  | integer
  | string
  | symbol
  | null
  | member (scope : Scope)
  /-- A tuple with a scope per column; without columns, any tuple. -/
  | tuple (scopes : List Scope)
  /-- A set of elements of a member or tuple type. -/
  | set (element : ExprType)
  | level (scope : Scope)
  | hierarchy (scope : Scope)
  | dimension (scope : Scope)
  | empty
  deriving DecidableEq, Repr

namespace ExprType

/-- A member of which nothing is known. -/
def anyMember : ExprType := member .unknown

def memberOf (h : Hierarchy) : ExprType := member (.ofHierarchy h)

def setOf (h : Hierarchy) : ExprType := set (memberOf h)

/-- The type of a category about which nothing else is known. -/
def ofCategory : Category → ExprType
  | .value => scalar
  | .logical => boolean
  | .numeric => numeric
  | .integer => integer
  | .string => string
  | .symbol => symbol
  | .null => null
  | .member => anyMember
  | .tuple => tuple []
  | .set => set anyMember
  | .level => level .unknown
  | .hierarchy => hierarchy .unknown
  | .dimension => dimension .unknown
  | .empty => empty

def category : ExprType → Category
  | scalar => .value
  | boolean => .logical
  | numeric => .numeric
  | integer => .integer
  | string => .string
  | symbol => .symbol
  | null => .null
  | member _ => .member
  | tuple _ => .tuple
  | set _ => .set
  | level _ => .level
  | hierarchy _ => .hierarchy
  | dimension _ => .dimension
  | empty => .empty

def isScalar (t : ExprType) : Bool := t.category.isScalar

def isSet : ExprType → Bool
  | set _ => true
  | _ => false

/-- The type of the elements of a set. -/
def element? : ExprType → Option ExprType
  | set t => some t
  | _ => none

/-- The number of columns of a member, tuple or set; all other types have none. -/
def arity : ExprType → Nat
  | member _ => 1
  | tuple scopes => scopes.length
  | set t => t.arity
  | _ => 0

/-- The scopes of the columns of a member, tuple or set. -/
def scopes : ExprType → List Scope
  | member s => [s]
  | tuple scopes => scopes
  | set t => t.scopes
  | _ => []

/-- The unique name of the one hierarchy that values lie on, if it is known. -/
def hierarchy? : ExprType → Option String
  | member s | level s | hierarchy s | dimension s => s.hierarchy
  | set t => t.hierarchy?
  | _ => none

/-- Whether values of the type lie on `h`, definitely or possibly. Scalars lie on no hierarchy; a
tuple of unknown columns possibly lies on any. -/
def uses (t : ExprType) (h : Hierarchy) (definitely : Bool) : Bool :=
  match t with
  | member s | level s | hierarchy s | dimension s => s.uses h definitely
  | tuple [] => !definitely
  | tuple scopes => scopes.any (·.uses h definitely)
  | set t => t.uses h definitely
  | _ => false

/-- The narrowest type that values of both types can be seen as. -/
def common? : ExprType → ExprType → Option ExprType
  | t, u =>
    if t = u then some t
    else if t = null ∧ u.isScalar then some u
    else if u = null ∧ t.isScalar then some t
    else match t, u with
      | integer, numeric | numeric, integer => some numeric
      | member s, member s' => some (member (s.common s'))
      | tuple ss, tuple ss' =>
        if ss.length = ss'.length then some (tuple (List.zipWith Scope.common ss ss')) else none
      | set a, set b => (common? a b).map set
      | t, u => if t.isScalar ∧ u.isScalar then some scalar else none

def text : ExprType → String
  | member s => s!"Member<{s.text}>"
  | level s => s!"Level<{s.text}>"
  | hierarchy s => s!"Hierarchy<{s.text}>"
  | dimension s => s!"Dimension<{s.text}>"
  | tuple scopes => "Tuple<" ++ ", ".intercalate (scopes.map Scope.text) ++ ">"
  | set t => s!"Set<{t.text}>"
  | t => t.category.name

end ExprType

end Olap
