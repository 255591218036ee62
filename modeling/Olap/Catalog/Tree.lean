/-!
# Ordered trees

Finitely branching ordered trees, the shape of the members of a hierarchy. `Tree.preorder` lists a
tree top first, each subtree as one block; a forest is a list of trees.
-/

set_option autoImplicit false

namespace Olap

/-- A tree whose nodes hold values of type `α`. -/
inductive Tree (α : Type) where
  | node (value : α) (children : List (Tree α))
  deriving Repr

namespace Tree

variable {α β : Type}

/-- The value at the top. -/
def value : Tree α → α
  | node v _ => v

/-- The subtrees just below the top. -/
def children : Tree α → List (Tree α)
  | node _ ts => ts

/-- A tree of a single node. -/
def leaf (v : α) : Tree α := node v []

@[simp] theorem value_node (v : α) (ts : List (Tree α)) : (node v ts).value = v := rfl
@[simp] theorem children_node (v : α) (ts : List (Tree α)) : (node v ts).children = ts := rfl

/-! ## Traversal -/

mutual

/-- The values of a tree, every node before those below it. -/
def preorder : Tree α → List α
  | node v ts => v :: preorderAll ts

/-- The values of a forest, tree after tree. -/
def preorderAll : List (Tree α) → List α
  | [] => []
  | t :: ts => t.preorder ++ preorderAll ts

end

@[simp] theorem preorderAll_append (ts us : List (Tree α)) :
    preorderAll (ts ++ us) = preorderAll ts ++ preorderAll us := by
  induction ts with
  | nil => simp [preorderAll]
  | cons t ts ih => simp [preorderAll, ih]

mutual

/-- The first subtree, in pre-order, whose top satisfies `p`. -/
def find? (p : α → Bool) : Tree α → Option (Tree α)
  | node v ts => if p v then some (node v ts) else findIn? p ts

/-- The first subtree of a forest, in pre-order, whose top satisfies `p`. -/
def findIn? (p : α → Bool) : List (Tree α) → Option (Tree α)
  | [] => none
  | t :: ts => (t.find? p).or (findIn? p ts)

end

/-! ## Growth -/

mutual

/-- Adds a leaf as the last child of every node that satisfies `p`; nothing below such a node is
changed. -/
def insertUnder (p : α → Bool) (v : α) : Tree α → Tree α
  | node w ts => if p w then node w (ts ++ [leaf v]) else node w (insertUnderAll p v ts)

/-- `insertUnder` in every tree of a forest. -/
def insertUnderAll (p : α → Bool) (v : α) : List (Tree α) → List (Tree α)
  | [] => []
  | t :: ts => t.insertUnder p v :: insertUnderAll p v ts

end

end Tree

end Olap
