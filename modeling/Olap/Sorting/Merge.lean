/-!
# Insertion and merging

The steps that sorting is made of. `less x y` says that `x` has to stand before `y`; elements of
which neither has to stand before the other keep their order. Merging may work from the front, from
the end or from both ends. If `less` is an order, all ways give the same; if it is not, they may
differ, but each gives a permutation of its arguments (`mergeForward_perm`, `mergeBackward_perm`,
`mergeEnds_perm`).
-/

set_option autoImplicit false

namespace Olap.Sorting

variable {α : Type} (less : α → α → Bool)

/-! ## Insertion -/

/-- Inserts into a list that is sorted from the largest to the smallest, before all that are not
larger. -/
def insertDescending (x : α) : List α → List α
  | [] => [x]
  | y :: ys => if less x y then y :: insertDescending x ys else x :: y :: ys

/-- Inserts elements one after the other into a sorted list, each behind its equals. -/
def insertAll (sorted rest : List α) : List α :=
  (rest.foldl (fun down x => insertDescending less x down) sorted.reverse).reverse

def insertionSort (xs : List α) : List α := insertAll less [] xs

theorem insertDescending_perm (x : α) (xs : List α) :
    (insertDescending less x xs).Perm (x :: xs) := by
  induction xs with
  | nil => exact .refl _
  | cons y ys ih =>
    unfold insertDescending
    split
    · exact (ih.cons y).trans (.swap x y ys)
    · exact .refl _

theorem foldl_insertDescending_perm (rest down : List α) :
    (rest.foldl (fun down x => insertDescending less x down) down).Perm (down ++ rest) := by
  induction rest generalizing down with
  | nil => simp
  | cons x rest ih =>
    refine (ih _).trans (((insertDescending_perm less x down).append_right rest).trans ?_)
    exact List.perm_middle.symm

theorem insertAll_perm (sorted rest : List α) :
    (insertAll less sorted rest).Perm (sorted ++ rest) := by
  refine (List.reverse_perm _).trans ((foldl_insertDescending_perm less rest _).trans ?_)
  exact (List.reverse_perm sorted).append_right rest

theorem insertionSort_perm (xs : List α) : (insertionSort less xs).Perm xs := by
  simpa [insertionSort] using insertAll_perm less [] xs

/-! ## Merging -/

/-- Merges sorted lists from the front on: the smaller one of the first elements comes next. -/
def mergeForward (l r : List α) : List α := l.merge r fun x y => !less y x

/-- Merges sorted lists from the end on: the larger one of the last elements comes last. -/
def mergeBackward (l r : List α) : List α :=
  (l.reverse.merge r.reverse fun x y => less y x).reverse

/-- Merges sorted lists: a number of elements from the front on, all others from the end on. -/
def mergeEnds : Nat → List α → List α → List α
  | 0, l, r => mergeBackward less l r
  | _ + 1, [], r => r
  | _ + 1, l, [] => l
  | n + 1, x :: l, y :: r =>
    if less y x then y :: mergeEnds n (x :: l) r else x :: mergeEnds n l (y :: r)

def mergeRuns (l r : List α) : List α :=
  if l.length ≤ r.length then mergeForward less l r else mergeBackward less l r

theorem mergeForward_perm (l r : List α) : (mergeForward less l r).Perm (l ++ r) :=
  List.merge_perm_append _

theorem mergeBackward_perm (l r : List α) : (mergeBackward less l r).Perm (l ++ r) := by
  refine (List.reverse_perm _).trans ((List.merge_perm_append _).trans ?_)
  exact (List.reverse_perm l).append (List.reverse_perm r)

theorem mergeEnds_perm (n : Nat) (l r : List α) : (mergeEnds less n l r).Perm (l ++ r) := by
  fun_induction mergeEnds less n l r with
  | case1 l r => exact mergeBackward_perm less l r
  | case2 => exact .refl _
  | case3 => simp
  | case4 n x l y r _ ih => exact (ih.cons y).trans List.perm_middle.symm
  | case5 n x l y r _ ih => exact ih.cons x

theorem mergeRuns_perm (l r : List α) : (mergeRuns less l r).Perm (l ++ r) := by
  unfold mergeRuns
  split
  · exact mergeForward_perm less l r
  · exact mergeBackward_perm less l r

end Olap.Sorting
