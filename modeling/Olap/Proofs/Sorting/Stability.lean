import Mathlib.Data.List.Perm.Basic
import Olap.Proofs.Sorting.Merging

/-!
# Stable sorting

While runs are joined, the elements of each run stood before those of the next one, and a run is either
sorted or still as it was (`InOrder`); a join of neighbours keeps that (`Orders.inOrder_join`). Parting
around a pivot keeps the places growing on both sides. So a stable sort by an order gives a list in
which every element comes before those behind it (`Orders.stableSort_sorted`). It is the list that merge
sort gives (`eq_mergeSort`).
-/

set_option autoImplicit false

namespace Olap.Sorting

variable {α : Type} {less : α → α → Bool} {P : α → Prop} {place : α → Nat} {xs ys : List α}

/-! ## Runs in order -/

/-- The run is sorted, or as it was. -/
def Run.Steady (less : α → α → Bool) (P : α → Prop) (place : α → Nat) (run : Run α) : Prop :=
  (∀ x ∈ run.items, P x) ∧
    if run.sorted then run.items.Pairwise (Before less place) else Numbered P place run.items

/-- Every run is sorted or as it was, and its elements stood before those of the next ones. -/
structure InOrder (less : α → α → Bool) (P : α → Prop) (place : α → Nat) (runs : List (Run α)) :
    Prop where
  steady : ∀ run ∈ runs, run.Steady less P place
  places : runs.Pairwise fun l r => ∀ x ∈ l.items, ∀ y ∈ r.items, place x < place y

/-- The sort gives sorted permutations of lists on which places grow. -/
structure SortsBy (less : α → α → Bool) (P : α → Prop) (place : α → Nat)
    (sort : List α → List α) : Prop where
  perm : ∀ xs, (sort xs).Perm xs
  sorted : ∀ xs, Numbered P place xs → (sort xs).Pairwise (Before less place)

theorem Run.Steady.settle {run : Run α} (h : run.Steady less P place) {sort : List α → List α}
    (hsort : SortsBy less P place sort) : (run.settle sort).Pairwise (Before less place) := by
  obtain ⟨-, h⟩ := h
  unfold Run.settle
  split
  · rename_i hsorted
    rwa [if_pos hsorted] at h
  · rename_i hsorted
    rw [if_neg hsorted] at h
    exact hsort.sorted _ h

namespace Orders

variable (h : Orders less P)
include h

theorem steady_join {sort : List α → List α} (hsort : SortsBy less P place sort) {l r : Run α}
    (hl : l.Steady less P place) (hr : r.Steady less P place)
    (hplace : ∀ x ∈ l.items, ∀ y ∈ r.items, place x < place y) :
    (Run.join less sort l r).Steady less P place := by
  have hperm := join_perm less hsort.perm l r
  refine ⟨fun x hx => ?_, ?_⟩
  · rcases List.mem_append.1 (hperm.mem_iff.1 hx) with hx | hx
    · exact hl.1 x hx
    · exact hr.1 x hx
  · unfold Run.join
    split
    · have hleft := settle_perm hsort.perm l
      have hright := settle_perm hsort.perm r
      rw [if_pos rfl]
      refine h.mergeRuns_sorted (fun x hx => hl.1 x (hleft.mem_iff.1 hx))
        (fun y hy => hr.1 y (hright.mem_iff.1 hy)) (fun x hx y hy => ?_) (hl.settle hsort)
        (hr.settle hsort)
      exact hplace x (hleft.mem_iff.1 hx) y (hright.mem_iff.1 hy)
    · rename_i hneither
      obtain ⟨hnot, hnot'⟩ := not_or.1 (fun hor => hneither (Bool.or_eq_true _ _ ▸ hor))
      have hnum := hl.2
      have hnum' := hr.2
      rw [if_neg hnot] at hnum
      rw [if_neg hnot'] at hnum'
      rw [if_neg Bool.false_ne_true]
      refine ⟨fun x hx => ?_, List.pairwise_append.2 ⟨hnum.places, hnum'.places, hplace⟩⟩
      rcases List.mem_append.1 hx with hx | hx
      · exact hl.1 x hx
      · exact hr.1 x hx

/-- Joining two neighbours keeps runs in order. -/
theorem inOrder_join {sort : List α → List α} (hsort : SortsBy less P place sort)
    {before after : List (Run α)} {l r : Run α}
    (hruns : InOrder less P place (before ++ l :: r :: after)) :
    InOrder less P place (before ++ Run.join less sort l r :: after) := by
  obtain ⟨hsteady, hplaces⟩ := hruns
  obtain ⟨hbefore, hrest, hacross⟩ := List.pairwise_append.1 hplaces
  obtain ⟨hl, hrest⟩ := List.pairwise_cons.1 hrest
  obtain ⟨hr, hafter⟩ := List.pairwise_cons.1 hrest
  have hmem {x : α} (hx : x ∈ (Run.join less sort l r).items) : x ∈ l.items ∨ x ∈ r.items :=
    List.mem_append.1 ((join_perm less hsort.perm l r).mem_iff.1 hx)
  refine ⟨fun run hrun => ?_, List.pairwise_append.2 ⟨hbefore, List.pairwise_cons.2 ⟨?_, hafter⟩, ?_⟩⟩
  · rcases List.mem_append.1 hrun with hrun | hrun
    · exact hsteady run (List.mem_append_left _ hrun)
    · rcases List.mem_cons.1 hrun with rfl | hrun
      · exact h.steady_join hsort (hsteady l (by simp)) (hsteady r (by simp))
          (hl r List.mem_cons_self)
      · exact hsteady run (by simp [hrun])
  · intro run hrun x hx
    rcases hmem hx with hx | hx
    · exact hl run (List.mem_cons_of_mem r hrun) x hx
    · exact hr run hrun x hx
  · intro run hrun other hother x hx y hy
    rcases List.mem_cons.1 hother with rfl | hother
    · rcases hmem hy with hy | hy
      · exact hacross run hrun l (by simp) x hx y hy
      · exact hacross run hrun r (by simp) x hx y hy
    · exact hacross run hrun other (by simp [hother]) x hx y hy

end Orders

/-! ## Joining runs -/

/-- The runs that wait, the first one first. -/
def waitingRuns (waiting : List (Run α × Nat)) : List (Run α) := (waiting.map Prod.fst).reverse

theorem waitingRuns_cons (left : Run α × Nat) (waiting : List (Run α × Nat)) :
    waitingRuns (left :: waiting) = waitingRuns waiting ++ [left.1] := by
  simp [waitingRuns]

namespace Orders

section
variable (h : Orders less P) {sort : List α → List α} (hsort : SortsBy less P place sort)
include h hsort

theorem inOrder_collapse (height : Nat) {waiting : List (Run α × Nat)} {run : Run α}
    {rest : List (Run α)} (hruns : InOrder less P place (waitingRuns waiting ++ run :: rest)) :
    InOrder less P place
      (waitingRuns (collapse (Run.join less sort) height waiting run).1 ++
        (collapse (Run.join less sort) height waiting run).2 :: rest) := by
  induction waiting generalizing run with
  | nil => exact hruns
  | cons left waiting ih =>
    unfold collapse
    split
    · rw [waitingRuns_cons, List.append_assoc] at hruns
      exact ih (h.inOrder_join hsort hruns)
    · exact hruns

theorem steady_joinAll (size start : Nat) {waiting : List (Run α × Nat)} {run : Run α}
    {rest : List (Run α)} (hruns : InOrder less P place (waitingRuns waiting ++ run :: rest)) :
    (joinAll (Run.join less sort) size start waiting run rest).Steady less P place := by
  induction rest generalizing start waiting run with
  | nil =>
    rw [joinAll]
    induction waiting generalizing run with
    | nil => exact hruns.steady run List.mem_cons_self
    | cons left waiting ih =>
      rw [waitingRuns_cons, List.append_assoc] at hruns
      exact ih (h.inOrder_join hsort hruns)
  | cons next rest ih =>
    rw [joinAll]
    refine ih _ ?_
    rw [waitingRuns_cons, List.append_assoc]
    exact h.inOrder_collapse hsort _ hruns

end

/-! ## Cutting runs -/

/-- A stretch in which each element is in one step from the one before is in the order of the steps. -/
theorem pairwise_chain {R : α → α → Prop} {step : α → α → Bool} {x : α}
    (htrans : ∀ {x y z}, P x → P y → P z → R x y → R y z → R x z) (hP : ∀ y ∈ x :: xs, P y)
    (hstep : (x :: xs).Pairwise fun y z => step y z = true → R y z) :
    (x :: xs.take (chainLength step x xs)).Pairwise R := by
  induction xs generalizing x with
  | nil => exact List.pairwise_singleton _ _
  | cons y ys ih =>
    obtain ⟨hx, hys⟩ := List.forall_mem_cons.1 hP
    obtain ⟨hfirst, hrest⟩ := List.pairwise_cons.1 hstep
    rw [chainLength]
    split
    · rename_i hxy
      have hxy := hfirst y List.mem_cons_self hxy
      have hchain := ih hys hrest
      obtain ⟨hy, hys⟩ := List.forall_mem_cons.1 hys
      rw [List.take_succ_cons]
      refine List.pairwise_cons.2 ⟨fun z hz => ?_, hchain⟩
      rcases List.mem_cons.1 hz with rfl | hz
      · exact hxy
      · exact htrans hx hy (hys z (List.mem_of_mem_take hz)) hxy ((List.pairwise_cons.1 hchain).1 z hz)
    · exact List.pairwise_singleton _ _

section
variable (h : Orders less P) (hxs : Numbered P place xs)
include h hxs

/-- The longest stretch at the front is sorted, or sorted the other way round. -/
theorem frontRun_sorted : (if (frontRun less xs).2 then (xs.take (frontRun less xs).1).reverse
    else xs.take (frontRun less xs).1).Pairwise (Before less place) := by
  rcases xs with _ | ⟨x, _ | ⟨y, rest⟩⟩
  · exact .nil
  · exact List.pairwise_singleton _ _
  · have hstretch (step : α → α → Bool) (hxy : step x y = true) :
        (x :: y :: rest).take (chainLength step y rest + 2) =
          x :: (y :: rest).take (chainLength step x (y :: rest)) := by
      rw [chainLength, if_pos hxy]
      rfl
    rw [frontRun]
    by_cases hless : less y x = true
    · rw [if_pos hless, if_pos rfl, hstretch (fun p q => less q p) hless]
      refine List.pairwise_reverse.2 (pairwise_chain (fun hx hy hz hxy hyz =>
        h.before_trans hz hy hx hyz hxy) hxs.elements ?_)
      exact hxs.places.imp fun _ hstep => .inl hstep
    · rw [if_neg hless, if_neg Bool.false_ne_true,
        hstretch (fun p q => !less q p) (by simpa using hless)]
      refine pairwise_chain h.before_trans hxs.elements ?_
      exact hxs.places.imp fun hplace hstep => .inr ⟨by simpa using hstep, hplace⟩

/-- The next run is made of the first elements, and is sorted or as it was. -/
theorem nextRun_cut (least : Nat) (eager : Bool) :
    (nextRun less least eager xs).1.Steady less P place ∧
      ∃ n, (nextRun less least eager xs).1.items.Perm (xs.take n) ∧
        (nextRun less least eager xs).2 = xs.drop n := by
  have hfirst (n : Nat) : Numbered P place (xs.take n) := hxs.sublist (List.take_sublist n xs)
  have hsorted {n : Nat} {run : List α} (hperm : run.Perm (xs.take n))
      (hrun : run.Pairwise (Before less place)) : Run.Steady less P place ⟨run, true⟩ :=
    ⟨fun x hx => (hfirst n).elements x (hperm.mem_iff.1 hx), hrun⟩
  have hfront := h.frontRun_sorted hxs
  unfold nextRun
  dsimp only
  split
  · have hperm : (if (frontRun less xs).2 then (xs.take (frontRun less xs).1).reverse
        else xs.take (frontRun less xs).1).Perm (xs.take (frontRun less xs).1) := by
      split
      · exact List.reverse_perm _
      · exact .refl _
    exact ⟨hsorted hperm hfront, _, hperm, rfl⟩
  · split
    · have hperm := smallSort_perm less (xs.take 32)
      exact ⟨hsorted hperm (h.smallSort_sorted (hfirst 32)), 32, hperm, rfl⟩
    · exact ⟨⟨(hfirst least).elements, hfirst least⟩, least, .refl _, rfl⟩

theorem inOrder_cutRuns (least : Nat) (eager : Bool) (fuel : Nat) :
    InOrder less P place (cutRuns (nextRun less least eager) fuel xs) := by
  induction fuel generalizing xs with
  | zero =>
    cases xs with
    | nil => exact ⟨List.forall_mem_nil _, .nil⟩
    | cons x xs =>
      exact ⟨List.forall_mem_singleton.2 ⟨hxs.elements, hxs⟩, List.pairwise_singleton _ _⟩
  | succ fuel ih =>
    cases xs with
    | nil => exact ⟨List.forall_mem_nil _, .nil⟩
    | cons x xs =>
      obtain ⟨hrun, n, hperm, hrest⟩ := h.nextRun_cut hxs least eager
      have hcut : Numbered P place ((x :: xs).take n ++ (x :: xs).drop n) := by
        rwa [List.take_append_drop]
      simp only [cutRuns]
      rw [hrest]
      obtain ⟨hsteady, hplaces⟩ := ih hcut.right
      refine ⟨List.forall_mem_cons.2 ⟨hrun, hsteady⟩, List.pairwise_cons.2 ⟨?_, hplaces⟩⟩
      intro run hmem y hy z hz
      have hz : z ∈ (x :: xs).drop n :=
        (cutRuns_perm (nextRun_perm less least eager) fuel _).mem_iff.1
          (List.mem_flatMap.2 ⟨run, hmem, hz⟩)
      exact hcut.across y (hperm.mem_iff.1 hy) z hz

theorem sortByRuns_sorted {sort : List α → List α} (hsort : SortsBy less P place sort)
    (eager : Bool) : (sortByRuns less sort eager xs).Pairwise (Before less place) := by
  have hcut := h.inOrder_cutRuns hxs (leastRun xs.length) eager xs.length
  unfold sortByRuns
  split
  case h_1 => exact .nil
  case h_2 run rest hruns =>
    rw [hruns] at hcut
    have hruns : InOrder less P place (waitingRuns [] ++ run :: rest) := hcut
    exact (h.steady_joinAll hsort _ _ hruns).settle hsort

end

/-! ## Parting -/

section
variable {before after : List α} {pivot x : α} {p : α → Bool}

theorem parted_sublist (p : α → Bool) :
    (before.filter p ++ after.filter p).Sublist (before ++ pivot :: after) :=
  List.filter_sublist.append (List.filter_sublist.cons pivot)

theorem pivoted_sublist (p : α → Bool) :
    (before.filter p ++ pivot :: after.filter p).Sublist (before ++ pivot :: after) :=
  List.filter_sublist.append (List.filter_sublist.cons_cons pivot)

theorem of_mem_parted (hx : x ∈ before.filter p ++ after.filter p) : p x = true := by
  rcases List.mem_append.1 hx with hx | hx
  · exact (List.mem_filter.1 hx).2
  · exact (List.mem_filter.1 hx).2

theorem of_mem_pivoted (hp : p pivot = true)
    (hx : x ∈ before.filter p ++ pivot :: after.filter p) : p x = true := by
  rcases List.mem_append.1 hx with hx | hx
  · exact (List.mem_filter.1 hx).2
  · rcases List.mem_cons.1 hx with rfl | hx
    · exact hp
    · exact (List.mem_filter.1 hx).2

/-- The elements with a property that the pivot does not have. -/
theorem mem_parted (hp : p pivot = false) (hx : x ∈ before ++ pivot :: after) (hpx : p x = true) :
    x ∈ before.filter p ++ after.filter p := by
  rcases List.mem_append.1 hx with hx | hx
  · exact List.mem_append_left _ (List.mem_filter.2 ⟨hx, hpx⟩)
  · rcases List.mem_cons.1 hx with rfl | hx
    · rw [hp] at hpx
      cases hpx
    · exact List.mem_append_right _ (List.mem_filter.2 ⟨hx, hpx⟩)

variable (h : Orders less P) (hxs : Numbered P place (before ++ pivot :: after))
include h hxs

/-- The smaller elements, sorted, stand before the others, sorted. -/
theorem parted_smaller_sorted (hl : xs.Perm (before.filter (less · pivot) ++ after.filter (less · pivot)))
    (hr : ys.Perm (before.filter (!less · pivot) ++ pivot :: after.filter (!less · pivot)))
    (hl' : xs.Pairwise (Before less place)) (hr' : ys.Pairwise (Before less place)) :
    (xs ++ ys).Pairwise (Before less place) := by
  have hpivot : P pivot := hxs.elements pivot (by simp)
  have hself := h.irrefl hpivot
  refine List.pairwise_append.2 ⟨hl', hr', fun x hx y hy => .inl ?_⟩
  have hx := hl.mem_iff.1 hx
  have hy := hr.mem_iff.1 hy
  have hless : less x pivot = true := of_mem_parted (p := (less · pivot)) hx
  have hnot : (!less y pivot) = true :=
    of_mem_pivoted (p := (!less · pivot)) (by simp [hself]) hy
  exact h.less_of_less_of_not_less (hxs.elements x ((parted_sublist _).subset hx)) hpivot
    (hxs.elements y ((pivoted_sublist _).subset hy)) hless (by simpa using hnot)

/-- The equals of a pivot that nothing is less than, as they stood, stand before the larger elements,
sorted. -/
theorem parted_equals_sorted (hleast : ∀ x ∈ before ++ pivot :: after, less x pivot = false)
    (hr : ys.Perm (before.filter (less pivot ·) ++ after.filter (less pivot ·)))
    (hr' : ys.Pairwise (Before less place)) :
    (before.filter (!less pivot ·) ++ pivot :: after.filter (!less pivot ·) ++ ys).Pairwise
      (Before less place) := by
  have hpivot : P pivot := hxs.elements pivot (by simp)
  have hself := h.irrefl hpivot
  have hequals := hxs.sublist (pivoted_sublist (!less pivot ·))
  have hequal {x : α}
      (hx : x ∈ before.filter (!less pivot ·) ++ pivot :: after.filter (!less pivot ·)) :
      less pivot x = false := by
    have hnot : (!less pivot x) = true :=
      of_mem_pivoted (p := (!less pivot ·)) (by simp [hself]) hx
    simpa using hnot
  refine List.pairwise_append.2 ⟨hequals.places.imp_of_mem fun hx hy hplace => .inr ⟨?_, hplace⟩,
    hr', fun x hx y hy => .inl ?_⟩
  · exact h.trans (hequals.elements _ hx) hpivot (hequals.elements _ hy) (hequal hx)
      (hleast _ ((pivoted_sublist _).subset hy))
  · have hy := hr.mem_iff.1 hy
    have hlarger : less pivot y = true := of_mem_parted hy
    exact h.less_of_not_less_of_less (hequals.elements x hx) hpivot
      (hxs.elements y ((parted_sublist _).subset hy)) (hequal hx) hlarger

end

theorem quickSort_sorted (h : Orders less P) (limit : Nat) {floor : Option α}
    (hfloor : ∀ f ∈ floor, P f ∧ ∀ x ∈ xs, less x f = false) (hxs : Numbered P place xs) :
    (quickSort less limit floor xs).Pairwise (Before less place) := by
  induction limit generalizing floor xs with
  | zero =>
    unfold quickSort
    split
    · exact h.smallSort_sorted hxs
    · exact h.sortByRuns_sorted hxs ⟨insertionSort_perm less, fun _ => h.insertionSort_sorted⟩ true
  | succ limit ih =>
    unfold quickSort
    split
    · exact h.smallSort_sorted hxs
    · dsimp only
      split
      · exact h.insertionSort_sorted hxs
      · rename_i pivot after hdrop
        generalize hbefore : xs.take (pivotPlace less xs) = before
        obtain rfl : before ++ pivot :: after = xs := by
          rw [← hbefore, ← hdrop, List.take_append_drop]
        have hpivot : P pivot := hxs.elements pivot (by simp)
        have hself := h.irrefl hpivot
        split
        · refine h.parted_smaller_sorted hxs (quickSort_perm _ _ _ _) (quickSort_perm _ _ _ _)
            (ih (fun f hf => ?_) (hxs.sublist (parted_sublist _)))
            (ih ?_ (hxs.sublist (pivoted_sublist _)))
          · obtain ⟨hf, hbelow⟩ := hfloor f hf
            exact ⟨hf, fun x hx => hbelow x ((parted_sublist _).subset hx)⟩
          · rintro _ ⟨⟩
            refine ⟨hpivot, fun x hx => ?_⟩
            have hnot : (!less x pivot) = true :=
              of_mem_pivoted (p := (!less · pivot)) (by simp [hself]) hx
            simpa using hnot
        · rename_i hsplit
          -- nothing is less than the pivot: the floor is not, or there are no smaller elements
          refine h.parted_equals_sorted hxs (fun x hx => Bool.eq_false_iff.2 fun hless => ?_)
            (quickSort_perm _ _ _ _) (ih nofun (hxs.sublist (parted_sublist _)))
          refine hsplit (Bool.and_eq_true_iff.2 ⟨?_, ?_⟩)
          · cases floor with
            | none => rfl
            | some f =>
              obtain ⟨hf, hbelow⟩ := hfloor f rfl
              exact h.less_of_not_less_of_less hf (hxs.elements x hx) hpivot (hbelow x hx) hless
          · have hmem := mem_parted (p := (less · pivot)) hself hx hless
            simpa using List.ne_nil_of_mem hmem

/-! ## Sorting -/

/-- A stable sort by an order gives a list in which every element comes before those behind it. -/
theorem stableSort_sorted (h : Orders less P) (hxs : Numbered P place xs) :
    (stableSort less xs).Pairwise (Before less place) := by
  unfold stableSort
  split
  · exact h.insertionSort_sorted hxs
  · refine h.sortByRuns_sorted hxs ⟨fun ys => quickSort_perm less _ none ys, fun ys hys => ?_⟩ _
    exact h.quickSort_sorted _ nofun hys

/-- Sorting the numbers of elements by the keys of these sorts the elements themselves, with their
places. -/
theorem stableSort_zip {β γ : Type} {lt : γ → γ → Bool} {Q : γ → Prop} (h : Orders lt Q)
    (key : β → γ) {bs : List β} (hbs : ∀ b ∈ bs, Q (key b)) :
    ∃ sorted : List (β × Nat), sorted.Perm bs.zipIdx ∧
      stableSort (fun a b => lt a.2 b.2) ((List.range bs.length).zip (bs.map key)) =
        sorted.map (fun e => (e.2, key e.1)) ∧
      sorted.Pairwise fun a b => lt (key a.1) (key b.1) = true ∨
        lt (key b.1) (key a.1) = false ∧ a.2 < b.2 := by
  have horders : Orders (fun a b : Nat × γ => lt a.2 b.2) (fun e => Q e.2) := ⟨h.asymm, h.trans⟩
  have hzip : (List.range bs.length).zip (bs.map key) = bs.zipIdx.map fun e => (e.2, key e.1) :=
    List.ext_getElem (by simp) fun i _ _ => by simp
  have hplaces : bs.zipIdx.Pairwise fun a b => a.2 < b.2 := by
    rw [← List.pairwise_map (R := (· < ·)), List.zipIdx_map_snd]
    exact List.pairwise_lt_range'
  have hnumbered : Numbered (fun e : Nat × γ => Q e.2) Prod.fst
      ((List.range bs.length).zip (bs.map key)) := by
    rw [hzip]
    refine ⟨fun e he => ?_, List.pairwise_map.2 hplaces⟩
    obtain ⟨⟨b, i⟩, hb, rfl⟩ := List.mem_map.1 he
    exact hbs b (List.mem_of_getElem? (List.mem_zipIdx_iff_getElem?.1 hb))
  have hsorted := horders.stableSort_sorted hnumbered
  have hperm := stableSort_perm (fun a b : Nat × γ => lt a.2 b.2)
    ((List.range bs.length).zip (bs.map key))
  rw [hzip] at hperm hsorted ⊢
  obtain ⟨sorted, heq, hperm⟩ := (congrFun₂ (List.eq_map_comp_perm _) _ _).mpr hperm
  rw [heq] at hsorted
  exact ⟨sorted, hperm, heq, List.pairwise_map.1 hsorted⟩

end Orders

/-- There is one sorted list in which equals keep their places, and merge sort gives it. -/
theorem eq_mergeSort {β : Type} {le : β → β → Bool}
    (htrans : ∀ x y z, le x y = true → le y z = true → le x z = true)
    (htotal : ∀ x y, (le x y || le y x) = true) {bs : List β} {sorted : List (β × Nat)}
    (hperm : sorted.Perm bs.zipIdx)
    (hsorted : sorted.Pairwise fun e f => List.zipIdxLE le e f = true) :
    sorted.map Prod.fst = bs.mergeSort le := by
  have hantisymm (e f : β × Nat) (he : e ∈ sorted)
      (hf : f ∈ bs.zipIdx.mergeSort (List.zipIdxLE le)) (hef : List.zipIdxLE le e f = true)
      (hfe : List.zipIdxLE le f e = true) : e = f := by
    have he := List.mem_zipIdx_iff_getElem?.1 (hperm.mem_iff.1 he)
    have hf := List.mem_zipIdx_iff_getElem?.1 ((List.mergeSort_perm _ _).mem_iff.1 hf)
    have hplace : e.2 = f.2 := by
      unfold List.zipIdxLE at hef hfe
      split at hef
      · rename_i hle
        split at hef
        · rename_i hle'
          rw [if_pos hle', if_pos hle] at hfe
          exact Nat.le_antisymm (of_decide_eq_true hef) (of_decide_eq_true hfe)
        · rename_i hle'
          rw [if_neg hle'] at hfe
          cases hfe
      · cases hef
    rw [hplace, hf] at he
    exact Prod.ext (Option.some.inj he).symm hplace
  rw [← List.mergeSort_zipIdx]
  refine congrArg (List.map Prod.fst) ?_
  exact List.Perm.eq_of_pairwise hantisymm hsorted
    (List.pairwise_mergeSort (List.zipIdxLE_trans htrans) (List.zipIdxLE_total htotal) _)
    (hperm.trans (List.mergeSort_perm _ _).symm)

end Olap.Sorting
