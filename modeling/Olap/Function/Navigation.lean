import Olap.Catalog.Cube

/-!
# Walks through the members of a hierarchy

`Tree.descendants` selects members of a subtree by their depth, leaving out whole branches that
cannot hold any; `Tree.drill` opens the members that are among given targets.
-/

set_option autoImplicit false

namespace Olap

/-- Which members of a subtree are wanted, seen from a target depth. -/
inductive DescendantsFlag where
  | self
  | after
  | before
  | beforeAndAfter
  | selfAndAfter
  | selfAndBefore
  | selfBeforeAfter
  | leaves
  deriving DecidableEq, Repr

namespace DescendantsFlag

def all : List DescendantsFlag :=
  [self, after, before, beforeAndAfter, selfAndAfter, selfAndBefore, selfBeforeAfter, leaves]

def word : DescendantsFlag → String
  | self => "SELF"
  | after => "AFTER"
  | before => "BEFORE"
  | beforeAndAfter => "BEFORE_AND_AFTER"
  | selfAndAfter => "SELF_AND_AFTER"
  | selfAndBefore => "SELF_AND_BEFORE"
  | selfBeforeAfter => "SELF_BEFORE_AFTER"
  | leaves => "LEAVES"

def ofWord? (word : String) : Option DescendantsFlag := all.find? (·.word == word)

/-- Whether a member at a depth is wanted. -/
def includes (flag : DescendantsFlag) (depth target : Nat) (isLeaf : Bool) : Bool :=
  match flag with
  | self => depth == target
  | after => target < depth
  | before => depth < target
  | beforeAndAfter => depth != target
  | selfAndAfter => target ≤ depth
  | selfAndBefore => depth ≤ target
  | selfBeforeAfter => true
  | leaves => isLeaf && depth ≤ target

/-- Whether members below the target depth can be wanted. -/
def goesBelow : DescendantsFlag → Bool
  | after | beforeAndAfter | selfAndAfter | selfBeforeAfter => true
  | _ => false

end DescendantsFlag

namespace Tree

mutual

/-- The wanted members of a subtree in pre-order. Below the target depth the walk goes on only if
members there can be wanted. -/
def descendants (target : Nat) (flag : DescendantsFlag) : Tree Member → List Member
  | node m ts =>
    let own := if flag.includes m.depth target ts.isEmpty then [m] else []
    if target ≤ m.depth && !flag.goesBelow then own else own ++ descendantsAll target flag ts

/-- The wanted members of several subtrees. -/
def descendantsAll (target : Nat) (flag : DescendantsFlag) : List (Tree Member) → List Member
  | [] => []
  | t :: ts => t.descendants target flag ++ descendantsAll target flag ts

end

mutual

/-- A member, followed by its children if it is a target; these are opened in the same way. -/
def drillAll (isTarget : Member → Bool) : Tree Member → List Member
  | node m ts => m :: if isTarget m then drillEach isTarget ts else []

/-- `drillAll` for several subtrees. -/
def drillEach (isTarget : Member → Bool) : List (Tree Member) → List Member
  | [] => []
  | t :: ts => t.drillAll isTarget ++ drillEach isTarget ts

end

/-- A member, followed by its children if it is a target. -/
def drill (isTarget : Member → Bool) : Tree Member → List Member
  | node m ts => m :: if isTarget m then ts.map value else []

end Tree

namespace Cube

/-- The subtree of a member; a member that the cube does not hold stands alone. -/
def subtree (c : Cube) (m : Member) : Tree Member :=
  ((c.hierarchyOf? m).bind (·.subtree? m)).getD (.leaf m)

/-- The wanted descendants of a member, the member itself included. -/
def descendants (c : Cube) (m : Member) (target : Nat) (flag : DescendantsFlag) : List Member :=
  (c.subtree m).descendants target flag

/-- Opens each of several members if it is among the targets; `recursive` goes on with the members
found. -/
def drillDown (c : Cube) (targets : List Member) (recursive : Bool) (m : Member) : List Member :=
  let isTarget := fun n => targets.any (· == n)
  if recursive then (c.subtree m).drillAll isTarget else (c.subtree m).drill isTarget

end Cube

end Olap
