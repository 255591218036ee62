import Olap.Sorting.Merge

/-!
# Sorting short lists

`smallSort` sorts the two halves of a list and merges them from both ends. A half begins with a block
of eight or four elements, which a fixed pattern of comparisons sorts; the others are inserted.
-/

set_option autoImplicit false

namespace Olap.Sorting

variable {α : Type} (less : α → α → Bool)

def sortTwo (x y : α) : α × α := if less y x then (y, x) else (x, y)

/-- Four elements in order: two pairs give the ends, then the two in the middle are compared. -/
def sortFour (w x y z : α) : List α :=
  let (a, b) := sortTwo less w x
  let (c, d) := sortTwo less y z
  let between (first last : α) (inner : α × α) : List α := [first, inner.1, inner.2, last]
  match less c a, less d b with
  | false, false => between a d (sortTwo less b c)
  | false, true => between a b (sortTwo less c d)
  | true, false => between c d (sortTwo less a b)
  | true, true => between c b (sortTwo less a d)

/-- Sorts one half of a list of a given length. -/
def sortHalf (size : Nat) : List α → List α
  | a :: b :: c :: d :: rest =>
    match rest with
    | e :: f :: g :: h :: others =>
      if 16 ≤ size then
        insertAll less (mergeEnds less 4 (sortFour less a b c d) (sortFour less e f g h)) others
      else insertAll less (sortFour less a b c d) rest
    | _ =>
      if 8 ≤ size then insertAll less (sortFour less a b c d) rest
      else insertionSort less (a :: b :: c :: d :: rest)
  | xs => insertionSort less xs

/-- Sorts a list that is at most some dozens of elements long. -/
def smallSort (xs : List α) : List α :=
  let half := xs.length / 2
  mergeEnds less half (sortHalf less xs.length (xs.take half))
    (sortHalf less xs.length (xs.drop half))

theorem sortFour_perm (w x y z : α) : (sortFour less w x y z).Perm [w, x, y, z] := by
  have swapped (x y : α) (rest : List α) : (y :: x :: rest).Perm (x :: y :: rest) := .swap x y rest
  have two (x y : α) (rest : List α) :
      ((sortTwo less x y).1 :: (sortTwo less x y).2 :: rest).Perm (x :: y :: rest) := by
    unfold sortTwo
    split
    · exact swapped x y rest
    · exact .refl _
  have rotate (x y z : α) : [x, y, z].Perm [z, x, y] := @List.perm_append_comm α [x, y] [z]
  have pairs := (two w x _).trans (((two y z []).cons x).cons w)
  refine .trans ?_ pairs
  unfold sortFour
  generalize sortTwo less w x = p
  generalize sortTwo less y z = q
  obtain ⟨a, b⟩ := p
  obtain ⟨c, d⟩ := q
  dsimp only
  split
  · exact (two b c [d]).cons a
  · exact ((two c d [b]).cons a).trans ((rotate c d b).cons a)
  · exact ((two a b [d]).cons c).trans (rotate a b c |>.symm |>.append_right [d])
  · refine ((two a d [b]).cons c).trans ?_
    refine (swapped a c [d, b]).trans (.cons a ?_)
    exact (rotate c d b).trans (.refl _)

end Olap.Sorting
