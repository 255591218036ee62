import Olap.Sorting.Permutation

/-!
# Sorting short lists

A comparison that is an order (`Orders`) still may not tell elements apart, so what a sort has to do
with them depends on where they stood: every element has a place, and the places grow along the list
that is sorted (`Numbered`). One element comes before another (`Before`) if it is less, or if neither is
less and its place is smaller. Where the places grow, each comparison that sorting makes decides which
of two elements comes before the other, so insertion, merging and the fixed patterns of short lists all
give lists in which every element comes before those behind it (`Orders.smallSort_sorted`).
-/

set_option autoImplicit false

namespace Olap.Sorting

variable {α : Type}

/-! ## Orders and places -/

/-- Among the elements with `P` the comparison is an order: no two are less than each other, and not
being less is transitive. -/
structure Orders (less : α → α → Bool) (P : α → Prop) : Prop where
  asymm : ∀ {x y}, P x → P y → less x y = true → less y x = false
  trans : ∀ {x y z}, P x → P y → P z → less y x = false → less z y = false → less z x = false

/-- The element is less, or neither is and its place is smaller. -/
def Before (less : α → α → Bool) (place : α → Nat) (x y : α) : Prop :=
  less x y = true ∨ less y x = false ∧ place x < place y

/-- The elements have `P`, and their places grow. -/
structure Numbered (P : α → Prop) (place : α → Nat) (xs : List α) : Prop where
  elements : ∀ x ∈ xs, P x
  places : xs.Pairwise fun x y => place x < place y

namespace Numbered

variable {P : α → Prop} {place : α → Nat} {xs ys : List α}

theorem sublist (h : Numbered P place ys) (hs : xs.Sublist ys) : Numbered P place xs :=
  ⟨fun x hx => h.elements x (hs.subset hx), h.places.sublist hs⟩

theorem left (h : Numbered P place (xs ++ ys)) : Numbered P place xs :=
  h.sublist (List.sublist_append_left xs ys)

theorem right (h : Numbered P place (xs ++ ys)) : Numbered P place ys :=
  h.sublist (List.sublist_append_right xs ys)

theorem across (h : Numbered P place (xs ++ ys)) : ∀ x ∈ xs, ∀ y ∈ ys, place x < place y :=
  (List.pairwise_append.1 h.places).2.2

end Numbered

namespace Orders

variable {less : α → α → Bool} {P : α → Prop} {place : α → Nat} {x y z : α} {xs ys l r : List α}

section
variable (h : Orders less P)
include h

theorem irrefl (hx : P x) : less x x = false := by
  cases hless : less x x with
  | false => rfl
  | true => exact hless.symm.trans (h.asymm hx hx hless)

theorem not_less_of_before (hx : P x) (hy : P y) (hxy : Before less place x y) :
    less y x = false := by
  rcases hxy with hless | ⟨hnot, -⟩
  · exact h.asymm hx hy hless
  · exact hnot

/-- What is less than one element and not less than another tells these apart. -/
theorem less_of_less_of_not_less (hx : P x) (hy : P y) (hz : P z) (hxy : less x y = true)
    (hzy : less z y = false) : less x z = true := by
  cases hxz : less x z with
  | true => rfl
  | false => exact absurd (h.trans hy hz hx hzy hxz) (by simp [hxy])

theorem less_of_not_less_of_less (hx : P x) (hy : P y) (hz : P z) (hyx : less y x = false)
    (hyz : less y z = true) : less x z = true := by
  cases hxz : less x z with
  | true => rfl
  | false => exact absurd (h.trans hz hx hy hxz hyx) (by simp [hyz])

theorem before_trans (hx : P x) (hy : P y) (hz : P z) (hxy : Before less place x y)
    (hyz : Before less place y z) : Before less place x z := by
  rcases hxy with hless | ⟨hyx, hplace⟩
  · exact .inl (h.less_of_less_of_not_less hx hy hz hless (h.not_less_of_before hy hz hyz))
  · rcases hyz with hless | ⟨hzy, hplace'⟩
    · exact .inl (h.less_of_not_less_of_less hx hy hz hyx hless)
    · exact .inr ⟨h.trans hx hy hz hyx hzy, Nat.lt_trans hplace hplace'⟩

/-! ## Insertion -/

theorem insertDescending_sorted {down : List α} (hdown : ∀ y ∈ down, P y) (hx : P x)
    (hplace : ∀ y ∈ down, place y < place x)
    (hsorted : down.Pairwise fun y z => Before less place z y) :
    (insertDescending less x down).Pairwise fun y z => Before less place z y := by
  induction down with
  | nil => exact List.pairwise_singleton _ _
  | cons y ys ih =>
    obtain ⟨hy, hys⟩ := List.forall_mem_cons.1 hdown
    obtain ⟨hplace, hplaces⟩ := List.forall_mem_cons.1 hplace
    obtain ⟨hfirst, hrest⟩ := List.pairwise_cons.1 hsorted
    rw [insertDescending]
    split
    · rename_i hless
      refine List.pairwise_cons.2 ⟨fun z hz => ?_, ih hys hplaces hrest⟩
      rcases List.mem_cons.1 ((insertDescending_perm less x ys).mem_iff.1 hz) with rfl | hz
      · exact .inl hless
      · exact hfirst z hz
    · rename_i hless
      have hyx : Before less place y x := .inr ⟨Bool.eq_false_iff.2 hless, hplace⟩
      refine List.pairwise_cons.2 ⟨fun z hz => ?_, hsorted⟩
      rcases List.mem_cons.1 hz with rfl | hz
      · exact hyx
      · exact h.before_trans (hys z hz) hy hx (hfirst z hz) hyx

theorem foldl_insertDescending_sorted {rest down : List α} (hdown : ∀ y ∈ down, P y)
    (hrest : Numbered P place rest) (hplace : ∀ y ∈ down, ∀ x ∈ rest, place y < place x)
    (hsorted : down.Pairwise fun y z => Before less place z y) :
    (rest.foldl (fun down x => insertDescending less x down) down).Pairwise
      fun y z => Before less place z y := by
  induction rest generalizing down with
  | nil => exact hsorted
  | cons x rest ih =>
    obtain ⟨hx, hxs⟩ := List.forall_mem_cons.1 hrest.elements
    obtain ⟨hfirst, hplaces⟩ := List.pairwise_cons.1 hrest.places
    have hmem {y : α} (hy : y ∈ insertDescending less x down) : y = x ∨ y ∈ down :=
      List.mem_cons.1 ((insertDescending_perm less x down).mem_iff.1 hy)
    refine ih (fun y hy => ?_) ⟨hxs, hplaces⟩ (fun y hy z hz => ?_)
      (h.insertDescending_sorted hdown hx (fun y hy => hplace y hy x List.mem_cons_self) hsorted)
    · rcases hmem hy with rfl | hy
      · exact hx
      · exact hdown y hy
    · rcases hmem hy with rfl | hy
      · exact hfirst z hz
      · exact hplace y hy z (List.mem_cons_of_mem x hz)

theorem insertAll_sorted {sorted rest : List α} (helements : ∀ x ∈ sorted, P x)
    (hrest : Numbered P place rest) (hplace : ∀ x ∈ sorted, ∀ y ∈ rest, place x < place y)
    (hsorted : sorted.Pairwise (Before less place)) :
    (insertAll less sorted rest).Pairwise (Before less place) := by
  refine List.pairwise_reverse.2 (h.foldl_insertDescending_sorted (fun y hy => ?_) hrest
    (fun y hy => hplace y (List.mem_reverse.1 hy)) (List.pairwise_reverse.2 hsorted))
  exact helements y (List.mem_reverse.1 hy)

theorem insertionSort_sorted (hxs : Numbered P place xs) :
    (insertionSort less xs).Pairwise (Before less place) :=
  h.insertAll_sorted (List.forall_mem_nil _) hxs (List.forall_mem_nil _) .nil

end

/-! ## Merging -/

/-- Merging keeps lists in the order of a relation that the comparison decides between the two. -/
theorem pairwise_merge {R : α → α → Prop} {le : α → α → Bool}
    (htrans : ∀ {x y z}, P x → P y → P z → R x y → R y z → R x z)
    (hl : ∀ x ∈ l, P x) (hr : ∀ y ∈ r, P y)
    (hle : ∀ x ∈ l, ∀ y ∈ r, le x y = true → R x y)
    (hnot : ∀ x ∈ l, ∀ y ∈ r, le x y = false → R y x)
    (hl' : l.Pairwise R) (hr' : r.Pairwise R) : (l.merge r le).Pairwise R := by
  induction l generalizing r with
  | nil => rwa [List.nil_merge]
  | cons x l ihl =>
    induction r with
    | nil => rwa [List.merge_right]
    | cons y r ihr =>
      obtain ⟨hx, hl⟩ := List.forall_mem_cons.1 hl
      obtain ⟨hy, hr₁⟩ := List.forall_mem_cons.1 hr
      obtain ⟨hfirst, hl₁⟩ := List.pairwise_cons.1 hl'
      obtain ⟨hfirst', hr₁'⟩ := List.pairwise_cons.1 hr'
      have hmem {z : α} {l r : List α} (hz : z ∈ l.merge r le) : z ∈ l ∨ z ∈ r :=
        List.mem_append.1 ((List.merge_perm_append le).mem_iff.1 hz)
      rw [List.cons_merge_cons]
      split
      · rename_i hless
        have hxy := hle x List.mem_cons_self y List.mem_cons_self hless
        refine List.pairwise_cons.2 ⟨fun z hz => ?_, ?_⟩
        · rcases hmem hz with hz | hz
          · exact hfirst z hz
          · rcases List.mem_cons.1 hz with rfl | hz
            · exact hxy
            · exact htrans hx hy (hr₁ z hz) hxy (hfirst' z hz)
        · exact ihl hl hr (fun x hx => hle x (List.mem_cons_of_mem _ hx))
            (fun x hx => hnot x (List.mem_cons_of_mem _ hx)) hl₁ hr'
      · rename_i hless
        have hyx := hnot x List.mem_cons_self y List.mem_cons_self (Bool.eq_false_iff.2 hless)
        refine List.pairwise_cons.2 ⟨fun z hz => ?_, ?_⟩
        · rcases hmem hz with hz | hz
          · rcases List.mem_cons.1 hz with rfl | hz
            · exact hyx
            · exact htrans hy hx (hl z hz) hyx (hfirst z hz)
          · exact hfirst' z hz
        · exact ihr hr₁ (fun x hx y hy => hle x hx y (List.mem_cons_of_mem _ hy))
            (fun x hx y hy => hnot x hx y (List.mem_cons_of_mem _ hy)) hr₁'

section
variable (h : Orders less P) (hl : ∀ x ∈ l, P x) (hr : ∀ y ∈ r, P y)
  (hplace : ∀ x ∈ l, ∀ y ∈ r, place x < place y)
  (hl' : l.Pairwise (Before less place)) (hr' : r.Pairwise (Before less place))
include h hl hr hplace hl' hr'

theorem mergeForward_sorted : (mergeForward less l r).Pairwise (Before less place) := by
  refine pairwise_merge h.before_trans hl hr (fun x hx y hy hle => ?_) (fun x hx y hy hle => ?_) hl' hr'
  · exact .inr ⟨by simpa using hle, hplace x hx y hy⟩
  · exact .inl (by simpa using hle)

theorem mergeBackward_sorted : (mergeBackward less l r).Pairwise (Before less place) := by
  refine List.pairwise_reverse.2 (pairwise_merge (P := P) (fun hx hy hz hxy hyz =>
    h.before_trans hz hy hx hyz hxy) ?_ ?_ (fun x hx y hy hle => .inl hle)
    (fun x hx y hy hle => ?_) (List.pairwise_reverse.2 hl') (List.pairwise_reverse.2 hr'))
  · exact fun x hx => hl x (List.mem_reverse.1 hx)
  · exact fun y hy => hr y (List.mem_reverse.1 hy)
  · exact .inr ⟨hle, hplace x (List.mem_reverse.1 hx) y (List.mem_reverse.1 hy)⟩

theorem mergeRuns_sorted : (mergeRuns less l r).Pairwise (Before less place) := by
  unfold mergeRuns
  split
  · exact h.mergeForward_sorted hl hr hplace hl' hr'
  · exact h.mergeBackward_sorted hl hr hplace hl' hr'

theorem mergeEnds_sorted (n : Nat) : (mergeEnds less n l r).Pairwise (Before less place) := by
  fun_induction mergeEnds less n l r with
  | case1 l r => exact h.mergeBackward_sorted hl hr hplace hl' hr'
  | case2 => exact hr'
  | case3 => exact hl'
  | case4 n x l y r hless ih =>
    obtain ⟨hy, hr₁⟩ := List.forall_mem_cons.1 hr
    obtain ⟨hfirst', hr₁'⟩ := List.pairwise_cons.1 hr'
    refine List.pairwise_cons.2 ⟨fun z hz => ?_, ih hl hr₁
      (fun x hx y hy => hplace x hx y (List.mem_cons_of_mem _ hy)) hl' hr₁'⟩
    rcases List.mem_append.1 ((mergeEnds_perm less n _ r).mem_iff.1 hz) with hz | hz
    · rcases List.mem_cons.1 hz with rfl | hz'
      · exact .inl hless
      · exact h.before_trans hy (hl x List.mem_cons_self) (hl z hz) (.inl hless)
          ((List.pairwise_cons.1 hl').1 z hz')
    · exact hfirst' z hz
  | case5 n x l y r hless ih =>
    obtain ⟨hx, hl₁⟩ := List.forall_mem_cons.1 hl
    obtain ⟨hfirst, hl₁'⟩ := List.pairwise_cons.1 hl'
    have hxy : Before less place x y :=
      .inr ⟨Bool.eq_false_iff.2 hless, hplace x List.mem_cons_self y List.mem_cons_self⟩
    refine List.pairwise_cons.2 ⟨fun z hz => ?_, ih hl₁ hr
      (fun x hx => hplace x (List.mem_cons_of_mem _ hx)) hl₁' hr'⟩
    rcases List.mem_append.1 ((mergeEnds_perm less n l _).mem_iff.1 hz) with hz | hz
    · exact hfirst z hz
    · rcases List.mem_cons.1 hz with rfl | hz'
      · exact hxy
      · exact h.before_trans hx (hr y List.mem_cons_self) (hr z hz) hxy
          ((List.pairwise_cons.1 hr').1 z hz')

end

/-! ## Short lists -/

/-- Two elements are put in order, and nothing else is done with them. -/
theorem sortTwo_sorted (hplace : place x < place y) :
    Before less place (sortTwo less x y).1 (sortTwo less x y).2 ∧
      (sortTwo less x y = (x, y) ∨ sortTwo less x y = (y, x)) := by
  unfold sortTwo
  split
  · rename_i hless
    exact ⟨.inl hless, .inr rfl⟩
  · rename_i hless
    exact ⟨.inr ⟨Bool.eq_false_iff.2 hless, hplace⟩, .inl rfl⟩

section
variable (h : Orders less P)
include h

theorem sortTwo_of_before (hx : P x) (hy : P y) (hxy : Before less place x y) :
    sortTwo less x y = (x, y) := by
  rw [sortTwo, h.not_less_of_before hx hy hxy]
  rfl

theorem four_sorted {a b c d : α} (hP : ∀ x ∈ [a, b, c, d], P x) (hab : Before less place a b)
    (hbc : Before less place b c) (hcd : Before less place c d) :
    [a, b, c, d].Pairwise (Before less place) := by
  simp only [List.forall_mem_cons, List.not_mem_nil, false_implies, implies_true, and_true] at hP
  obtain ⟨ha, hb, hc, hd⟩ := hP
  have hac := h.before_trans ha hb hc hab hbc
  have hbd := h.before_trans hb hc hd hbc hcd
  have had := h.before_trans ha hb hd hab hbd
  simp [hab, hac, had, hbc, hbd, hcd]

/-- Between two elements that are the ends for both, two elements are put in order. -/
theorem between_sorted {a b c d : α} (hP : ∀ x ∈ [a, b, c, d], P x) (hplace : place b < place c)
    (hab : Before less place a b) (hac : Before less place a c) (hbd : Before less place b d)
    (hcd : Before less place c d) :
    [a, (sortTwo less b c).1, (sortTwo less b c).2, d].Pairwise (Before less place) := by
  obtain ⟨hinner, heq | heq⟩ : Before less place (sortTwo less b c).1 (sortTwo less b c).2 ∧ _ :=
    sortTwo_sorted hplace
  all_goals rw [heq] at hinner ⊢
  · exact h.four_sorted hP hab hinner hcd
  · refine h.four_sorted (fun x hx => hP x ?_) hac hinner hbd
    exact ((List.Perm.swap b c [d]).cons a).mem_iff.1 hx

theorem sortFour_sorted {w : α} (hxs : Numbered P place [w, x, y, z]) :
    (sortFour less w x y z).Pairwise (Before less place) := by
  have hpairs : Numbered P place ([w, x] ++ [y, z]) := hxs
  have hacross := hpairs.across
  obtain ⟨⟨hwx, -⟩, -, hyz⟩ : (place w < place x ∧ place w < place y ∧ place w < place z) ∧
      (place x < place y ∧ place x < place z) ∧ place y < place z := by
    simpa using hxs.places
  obtain ⟨hab, hp⟩ : Before less place (sortTwo less w x).1 (sortTwo less w x).2 ∧ _ :=
    sortTwo_sorted hwx
  obtain ⟨hcd, hq⟩ : Before less place (sortTwo less y z).1 (sortTwo less y z).2 ∧ _ :=
    sortTwo_sorted hyz
  unfold sortFour
  generalize sortTwo less w x = p at *
  generalize sortTwo less y z = q at *
  obtain ⟨a, b⟩ := p
  obtain ⟨c, d⟩ := q
  dsimp only at hab hcd ⊢
  -- the elements of the first pair stood before those of the second one
  have hfirst (u : α) (hu : u = a ∨ u = b) : u ∈ [w, x] := by
    rcases hp with hp | hp <;> cases hp <;> rcases hu with rfl | rfl <;> simp
  have hsecond (u : α) (hu : u = c ∨ u = d) : u ∈ [y, z] := by
    rcases hq with hq | hq <;> cases hq <;> rcases hu with rfl | rfl <;> simp
  have hplace {u v : α} (hu : u = a ∨ u = b) (hv : v = c ∨ v = d) : place u < place v :=
    hacross u (hfirst u hu) v (hsecond v hv)
  have helement (u : α) (hu : (u = a ∨ u = b) ∨ (u = c ∨ u = d)) : P u := by
    rcases hu with hu | hu
    · exact hxs.elements u (List.mem_append_left [y, z] (hfirst u hu))
    · exact hxs.elements u (List.mem_append_right [w, x] (hsecond u hu))
  have ha : P a := helement a (.inl (.inl rfl))
  have hb : P b := helement b (.inl (.inr rfl))
  have hc : P c := helement c (.inr (.inl rfl))
  have hd : P d := helement d (.inr (.inr rfl))
  split
  case h_1 hca hdb =>
    have hac : Before less place a c := .inr ⟨hca, hplace (.inl rfl) (.inl rfl)⟩
    have hbd : Before less place b d := .inr ⟨hdb, hplace (.inr rfl) (.inr rfl)⟩
    exact h.between_sorted (by simp [ha, hb, hc, hd]) (hplace (.inr rfl) (.inl rfl)) hab hac hbd hcd
  case h_2 hca hdb =>
    have hac : Before less place a c := .inr ⟨hca, hplace (.inl rfl) (.inl rfl)⟩
    rw [h.sortTwo_of_before hc hd hcd]
    exact h.four_sorted (by simp [ha, hb, hc, hd]) hac hcd (.inl hdb)
  case h_3 hca hdb =>
    have hbd : Before less place b d := .inr ⟨hdb, hplace (.inr rfl) (.inr rfl)⟩
    rw [h.sortTwo_of_before ha hb hab]
    exact h.four_sorted (by simp [ha, hb, hc, hd]) (.inl hca) hab hbd
  case h_4 hca hdb =>
    exact h.between_sorted (by simp [ha, hb, hc, hd]) (hplace (.inl rfl) (.inr rfl)) (.inl hca) hcd hab
      (.inl hdb)

/-- Two neighbouring blocks, each sorted by itself, are merged. -/
theorem mergeEnds_blocks_sorted (hxs : Numbered P place (xs ++ ys)) (hl : l.Perm xs) (hr : r.Perm ys)
    (hl' : l.Pairwise (Before less place)) (hr' : r.Pairwise (Before less place)) (n : Nat) :
    (mergeEnds less n l r).Pairwise (Before less place) :=
  h.mergeEnds_sorted (fun x hx => hxs.left.elements x (hl.mem_iff.1 hx))
    (fun y hy => hxs.right.elements y (hr.mem_iff.1 hy))
    (fun x hx y hy => hxs.across x (hl.mem_iff.1 hx) y (hr.mem_iff.1 hy)) hl' hr' n

/-- A sorted block of the first elements, with the others inserted. -/
theorem insertAll_block_sorted {block first rest : List α} (hxs : Numbered P place (first ++ rest))
    (hperm : block.Perm first) (hsorted : block.Pairwise (Before less place)) :
    (insertAll less block rest).Pairwise (Before less place) :=
  h.insertAll_sorted (fun x hx => hxs.left.elements x (hperm.mem_iff.1 hx)) hxs.right
    (fun x hx => hxs.across x (hperm.mem_iff.1 hx)) hsorted

theorem sortHalf_sorted (hxs : Numbered P place xs) (size : Nat) :
    (sortHalf less size xs).Pairwise (Before less place) := by
  unfold sortHalf
  split
  case h_1 a b c d rest =>
    have hfour : Numbered P place ([a, b, c, d] ++ rest) := hxs
    have hblock := h.insertAll_block_sorted hfour (sortFour_perm less a b c d)
      (h.sortFour_sorted hfour.left)
    split
    case h_1 e f g i others =>
      have height : Numbered P place (([a, b, c, d] ++ [e, f, g, i]) ++ others) := hxs
      split
      · have hperm := sortFour_perm less a b c d
        have hperm' := sortFour_perm less e f g i
        refine h.insertAll_block_sorted height
          ((mergeEnds_perm less 4 _ _).trans (hperm.append hperm')) ?_
        exact h.mergeEnds_blocks_sorted height.left hperm hperm' (h.sortFour_sorted height.left.left)
          (h.sortFour_sorted height.left.right) 4
      · exact hblock
    case h_2 =>
      split
      · exact hblock
      · exact h.insertionSort_sorted hxs
  case h_2 => exact h.insertionSort_sorted hxs

theorem smallSort_sorted (hxs : Numbered P place xs) :
    (smallSort less xs).Pairwise (Before less place) := by
  have hhalves : Numbered P place (xs.take (xs.length / 2) ++ xs.drop (xs.length / 2)) := by
    rwa [List.take_append_drop]
  exact h.mergeEnds_blocks_sorted hhalves (sortHalf_perm less _ _) (sortHalf_perm less _ _)
    (h.sortHalf_sorted hhalves.left _) (h.sortHalf_sorted hhalves.right _) _

end

end Orders

end Olap.Sorting
