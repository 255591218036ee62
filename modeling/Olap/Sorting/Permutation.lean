import Olap.Sorting.Stable

/-!
# Sorting permutes

`stableSort_perm`: sorting loses nothing and adds nothing, whatever the comparison is. The proof
follows the levels of the sort: short lists, runs and the joins between them, parting around pivots.
-/

set_option autoImplicit false

namespace Olap.Sorting

variable {α : Type}

/-! ## Short lists -/

theorem sortHalf_perm (less : α → α → Bool) (size : Nat) (xs : List α) :
    (sortHalf less size xs).Perm xs := by
  unfold sortHalf
  split
  case h_1 a b c d rest =>
    have first := (sortFour_perm less a b c d).append_right rest
    split
    case h_1 e f g h others =>
      split
      · have merged := (mergeEnds_perm less 4 _ _).trans
          ((sortFour_perm less a b c d).append (sortFour_perm less e f g h))
        exact (insertAll_perm less _ others).trans (merged.append_right others)
      · exact (insertAll_perm less _ _).trans first
    case h_2 =>
      split
      · exact (insertAll_perm less _ _).trans first
      · exact insertionSort_perm less _
  case h_2 => exact insertionSort_perm less _

theorem smallSort_perm (less : α → α → Bool) (xs : List α) : (smallSort less xs).Perm xs := by
  refine (mergeEnds_perm less _ _ _).trans ?_
  refine ((sortHalf_perm less _ _).append (sortHalf_perm less _ _)).trans ?_
  rw [List.take_append_drop]

/-! ## Runs -/

theorem settle_perm {sort : List α → List α} (h : ∀ xs, (sort xs).Perm xs) (run : Run α) :
    (run.settle sort).Perm run.items := by
  unfold Run.settle
  split
  · exact .refl _
  · exact h _

theorem nextRun_perm (less : α → α → Bool) (least : Nat) (eager : Bool) (xs : List α) :
    ((nextRun less least eager xs).1.items ++ (nextRun less least eager xs).2).Perm xs := by
  have whole (n : Nat) : (xs.take n ++ xs.drop n).Perm xs := by rw [List.take_append_drop]
  unfold nextRun
  dsimp only
  split
  · split
    · exact ((List.reverse_perm _).append_right _).trans (whole _)
    · exact whole _
  · split
    · exact ((smallSort_perm less _).append_right _).trans (whole 32)
    · exact whole least

theorem cutRuns_perm {next : List α → Run α × List α}
    (h : ∀ xs, ((next xs).1.items ++ (next xs).2).Perm xs) (fuel : Nat) (xs : List α) :
    ((cutRuns next fuel xs).flatMap Run.items).Perm xs := by
  induction fuel generalizing xs with
  | zero => cases xs <;> simp [cutRuns]
  | succ fuel ih =>
    cases xs with
    | nil => simp [cutRuns]
    | cons x xs =>
      simp only [cutRuns, List.flatMap_cons]
      exact ((ih _).append_left _).trans (h _)

theorem join_perm (less : α → α → Bool) {sort : List α → List α}
    (h : ∀ xs, (sort xs).Perm xs) (l r : Run α) :
    (Run.join less sort l r).items.Perm (l.items ++ r.items) := by
  unfold Run.join
  split
  · exact (mergeRuns_perm less _ _).trans ((settle_perm h l).append (settle_perm h r))
  · exact .refl _

/-- The elements of the waiting runs, those of the first run first. -/
def waitingItems (waiting : List (Run α × Nat)) : List α :=
  waiting.reverse.flatMap fun left => left.1.items

theorem waitingItems_cons (left : Run α × Nat) (waiting : List (Run α × Nat)) :
    waitingItems (left :: waiting) = waitingItems waiting ++ left.1.items := by
  simp [waitingItems]

theorem collapse_perm {join : Run α → Run α → Run α}
    (h : ∀ l r, (join l r).items.Perm (l.items ++ r.items)) (height : Nat)
    (waiting : List (Run α × Nat)) (run : Run α) :
    (waitingItems (collapse join height waiting run).1 ++
      (collapse join height waiting run).2.items).Perm (waitingItems waiting ++ run.items) := by
  induction waiting generalizing run with
  | nil => exact .refl _
  | cons left waiting ih =>
    unfold collapse
    split
    · rw [waitingItems_cons, List.append_assoc]
      exact (ih _).trans ((h _ _).append_left _)
    · exact .refl _

theorem joinAll_perm {join : Run α → Run α → Run α}
    (h : ∀ l r, (join l r).items.Perm (l.items ++ r.items)) (size start : Nat)
    (waiting : List (Run α × Nat)) (run : Run α) (rest : List (Run α)) :
    (joinAll join size start waiting run rest).items.Perm
      (waitingItems waiting ++ run.items ++ rest.flatMap Run.items) := by
  induction rest generalizing start waiting run with
  | nil =>
    simp only [joinAll, List.flatMap_nil, List.append_nil]
    induction waiting generalizing run with
    | nil => exact .refl _
    | cons left waiting ih =>
      rw [waitingItems_cons, List.append_assoc]
      exact (ih _).trans ((h _ _).append_left _)
  | cons next rest ih =>
    simp only [joinAll, List.flatMap_cons]
    refine (ih _ _ _).trans ?_
    rw [waitingItems_cons, List.append_assoc _ next.items]
    exact (collapse_perm h _ _ _).append_right _

theorem sortByRuns_perm (less : α → α → Bool) {sort : List α → List α}
    (h : ∀ xs, (sort xs).Perm xs) (eager : Bool) (xs : List α) :
    (sortByRuns less sort eager xs).Perm xs := by
  have cut := cutRuns_perm (nextRun_perm less (leastRun xs.length) eager) xs.length xs
  unfold sortByRuns
  split
  case h_1 none => simpa [none] using cut
  case h_2 run rest some =>
    rw [some] at cut
    refine (settle_perm h _).trans ((joinAll_perm (join_perm less h) _ _ _ _ _).trans ?_)
    simpa [waitingItems] using cut

/-! ## Parting -/

theorem filter_append_filter_not_perm (p : α → Bool) (xs : List α) :
    (xs.filter p ++ xs.filter (!p ·)).Perm xs := by
  induction xs with
  | nil => exact .refl _
  | cons x xs ih =>
    cases hx : p x
    · simpa [hx] using List.perm_middle.trans (ih.cons x)
    · simpa [hx] using ih.cons x

theorem quickSort_perm (less : α → α → Bool) (limit : Nat) (floor : Option α) (xs : List α) :
    (quickSort less limit floor xs).Perm xs := by
  induction limit generalizing floor xs with
  | zero =>
    unfold quickSort
    split
    · exact smallSort_perm less xs
    · exact sortByRuns_perm less (insertionSort_perm less) true xs
  | succ limit ih =>
    unfold quickSort
    split
    · exact smallSort_perm less xs
    · dsimp only
      split
      · exact insertionSort_perm less xs
      · rename_i pivot after hdrop
        generalize hbefore : xs.take (pivotPlace less xs) = before
        have whole : before ++ pivot :: after = xs := by
          rw [← hbefore, ← hdrop, List.take_append_drop]
        have parted (p : α → Bool) :
            ((before.filter p ++ after.filter p) ++
              (before.filter (!p ·) ++ pivot :: after.filter (!p ·))).Perm xs := by
          rw [← whole]
          refine (List.perm_middle.append_left _).trans (List.perm_middle.trans ?_)
          refine .trans (.cons pivot ?_) List.perm_middle.symm
          rw [← List.filter_append, ← List.filter_append]
          exact filter_append_filter_not_perm p (before ++ after)
        split
        · exact ((ih _ _).append (ih _ _)).trans (parted (less · pivot))
        · refine ((ih none _).append_left _).trans ?_
          exact List.perm_append_comm.trans (parted (less pivot ·))

/-! ## Sorting -/

theorem stableSort_perm (less : α → α → Bool) (xs : List α) : (stableSort less xs).Perm xs := by
  unfold stableSort
  split
  · exact insertionSort_perm less xs
  · exact sortByRuns_perm less (fun ys => quickSort_perm less _ none ys) _ xs

end Olap.Sorting
