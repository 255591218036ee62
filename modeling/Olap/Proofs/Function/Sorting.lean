import Olap.Function.Sorting
import Olap.Proofs.Double.Value
import Mathlib.Order.Compare

/-!
# When sort paths compare consistently

One key is lower than another (`SortKey.Lower`) if its number is smaller or its text comes first, and a
missing one is the lowest. Keys are compared by this total preorder, and so are single steps of sort
paths (`SortMode.orderSteps`).
Whole paths are not: the key of a step that two paths share does not count between the two, but it does
count against a third path that parts from both at that step. Two paths are steady (`SortPath.Steady`)
if no step that they share says anything else than the comparison of the whole paths. On steady paths
the comparison is transitive (`SortPath.order_trans`); between two paths that are not steady there is a
third that makes it inconsistent (`SortPath.exists_between`).
-/

set_option autoImplicit false

namespace Olap

open Std (TransCmp OrientedCmp ReflCmp)

/-! ## Keys -/

namespace SortKey

@[simp] theorem order_number (x y : Option Double) :
    order (number x) (number y) = compare (x.map Double.totalKey) (y.map Double.totalKey) := by
  rcases x with _ | x <;> rcases y with _ | y <;> rfl

theorem compare_some_some {α : Type} [Ord α] (a b : α) : compare (some a) (some b) = compare a b :=
  rfl

@[simp] theorem order_text (s t : Option String) : order (text s) (text t) = compare s t := by
  rcases s with _ | s <;> rcases t with _ | t
  case some.some => rw [compare_some_some, order]
  all_goals rfl

@[simp] theorem order_number_text (x : Option Double) (s : Option String) :
    order (number x) (text s) = .lt := by
  cases x <;> rfl

@[simp] theorem order_text_number (s : Option String) (x : Option Double) :
    order (text s) (number x) = .gt := by
  cases s <;> rfl

instance : OrientedCmp SortKey.order where
  eq_swap {a b} := by
    rcases a with x | s <;> rcases b with y | t <;> simp
    · exact OrientedCmp.eq_swap
    · exact OrientedCmp.eq_swap

instance : TransCmp SortKey.order where
  isLE_trans {a b c} hab hbc := by
    rcases a with x | s <;> rcases b with y | t <;> rcases c with z | u <;> simp at hab hbc ⊢
    · exact TransCmp.isLE_trans hab hbc
    · exact TransCmp.isLE_trans hab hbc

/-- One key is lower than another: a missing key than one that is there, a smaller number than a larger
one, a text than one that follows in the alphabet, and any number than any text. -/
def Lower : SortKey → SortKey → Prop
  | number none, number (some _) => True
  | number (some x), number (some y) => x.Below y
  | text none, text (some _) => True
  | text (some s), text (some t) => s < t
  | number _, text _ => True
  | _, _ => False

/-- `k` is higher than `l`. -/
def Higher (k l : SortKey) : Prop := l.Lower k

theorem lower_iff {k l : SortKey} : k.Lower l ↔ k.order l = .lt := by
  rcases k with (_ | x) | (_ | s) <;> rcases l with (_ | y) | (_ | t)
  case number.some.number.some => exact Double.below_iff
  case number.none.number.some | text.none.text.some => exact ⟨fun _ => rfl, fun _ => trivial⟩
  case text.some.text.some => exact compareOfLessAndEq_eq_lt.symm
  all_goals simp [Lower]

instance (k l : SortKey) : Decidable (k.Lower l) := decidable_of_iff _ lower_iff.symm

instance (k l : SortKey) : Decidable (k.Higher l) := inferInstanceAs (Decidable (l.Lower k))

end SortKey

namespace SortMode

variable (mode : SortMode)

theorem orderKeys_descending (h : mode.descending = true) :
    mode.orderKeys = fun k l => l.order k := by
  funext k l
  rw [orderKeys, if_pos h]
  exact OrientedCmp.eq_swap.symm

theorem orderKeys_ascending (h : mode.descending = false) : mode.orderKeys = SortKey.order := by
  funext k l
  rw [orderKeys, h]
  rfl

/-- The keys come in this order in the direction of the mode. -/
def Ahead (k l : SortKey) : Prop := mode.orderKeys k l = .lt

instance (k l : SortKey) : Decidable (mode.Ahead k l) :=
  inferInstanceAs (Decidable (mode.orderKeys k l = .lt))

theorem ahead_descending (h : mode.descending = true) : mode.Ahead = SortKey.Higher := by
  funext k l
  rw [Ahead, mode.orderKeys_descending h, SortKey.Higher, SortKey.lower_iff]

theorem ahead_ascending (h : mode.descending = false) : mode.Ahead = SortKey.Lower := by
  funext k l
  rw [Ahead, mode.orderKeys_ascending h, SortKey.lower_iff]

instance : TransCmp mode.orderKeys := by
  cases h : mode.descending with
  | true =>
    rw [mode.orderKeys_descending h]
    infer_instance
  | false =>
    rw [mode.orderKeys_ascending h]
    infer_instance

/-- Compares steps by their keys, and by their ordinals where the keys are equal. -/
def orderSteps : Nat × SortKey → Nat × SortKey → Ordering :=
  compareLex (fun a b => mode.orderKeys a.2 b.2) (compareOn Prod.fst)

instance : TransCmp (fun a b : Nat × SortKey => mode.orderKeys a.2 b.2) where
  eq_swap := OrientedCmp.eq_swap
  isLE_trans := TransCmp.isLE_trans

instance : TransCmp mode.orderSteps := inferInstanceAs (TransCmp (compareLex _ _))

variable {mode} {a b : Nat × SortKey}

/-- Steps along the same member are compared by their keys alone. -/
theorem orderSteps_of_eq (h : a.1 = b.1) : mode.orderSteps a b = mode.orderKeys a.2 b.2 := by
  have hself : compare b.1 b.1 = .eq := ReflCmp.compare_self
  rw [orderSteps, compareLex, compareOn, h, hself, Ordering.then_eq]

theorem orderSteps_eq_eq : mode.orderSteps a b = .eq ↔ mode.orderKeys a.2 b.2 = .eq ∧ a.1 = b.1 := by
  rw [orderSteps, compareLex, Ordering.then_eq_eq, compareOn, Nat.compare_eq_eq]

end SortMode

namespace SortPath

variable {mode : SortMode} {last : Ordering} {a b : Nat × SortKey} {p q r : SortPath}

/-! ## Paths -/

theorem orderFrom_same (h : a.1 = b.1) :
    orderFrom mode last (a :: p) (b :: q) = orderFrom mode (mode.orderKeys a.2 b.2) p q := by
  rw [orderFrom, if_pos h]

theorem orderFrom_parted (h : a.1 ≠ b.1) :
    orderFrom mode last (a :: p) (b :: q) = mode.orderSteps a b := by
  rw [orderFrom, if_neg h]
  rfl

theorem orderFrom_swap (mode : SortMode) (last : Ordering) (p q : SortPath) :
    orderFrom mode last.swap q p = (orderFrom mode last p q).swap := by
  induction p generalizing last q with
  | nil => cases q <;> rfl
  | cons a p ih =>
    rcases q with _ | ⟨b, q⟩
    · rfl
    · by_cases h : a.1 = b.1
      · rw [orderFrom_same h, orderFrom_same h.symm, ← ih, ← OrientedCmp.eq_swap]
      · rw [orderFrom_parted h, orderFrom_parted (Ne.symm h)]
        exact OrientedCmp.eq_swap

/-- Comparing two paths the other way round gives the opposite. -/
theorem order_swap (mode : SortMode) (p q : SortPath) : order mode q p = (order mode p q).swap :=
  orderFrom_swap mode .eq p q

/-! ## Steady paths -/

/-- No step that two paths share says anything else than `c`. -/
def SteadyTo (mode : SortMode) (c : Ordering) : SortPath → SortPath → Prop
  | a :: p, b :: q =>
    a.1 = b.1 →
      (mode.orderKeys a.2 b.2 = .eq ∨ mode.orderKeys a.2 b.2 = c) ∧ SteadyTo mode c p q
  | _, _ => True

/-- No step that two paths share says anything else than the comparison of the paths. -/
def Steady (mode : SortMode) (p q : SortPath) : Prop := SteadyTo mode (order mode p q) p q

/-- Paths are steady if a member has the same key on both. -/
theorem steadyTo_of_agree {c : Ordering}
    (h : ∀ a ∈ p, ∀ b ∈ q, a.1 = b.1 → a.2 = b.2) : SteadyTo mode c p q := by
  induction p generalizing q with
  | nil => trivial
  | cons a p ih =>
    rcases q with _ | ⟨b, q⟩
    · trivial
    · intro hab
      refine ⟨.inl ?_, ih fun a' ha' b' hb' => ?_⟩
      · rw [h a List.mem_cons_self b List.mem_cons_self hab]
        exact ReflCmp.compare_self
      · exact h a' (List.mem_cons_of_mem a ha') b' (List.mem_cons_of_mem b hb')

/-- The first steps of steady paths are equal or compare as the paths do. -/
theorem orderSteps_of_steadyTo
    (h : SteadyTo mode (orderFrom mode last (a :: p) (b :: q)) (a :: p) (b :: q)) :
    mode.orderSteps a b = .eq ∨
      mode.orderSteps a b = orderFrom mode last (a :: p) (b :: q) := by
  by_cases hab : a.1 = b.1
  · rw [SortMode.orderSteps_of_eq hab]
    exact (h hab).1
  · exact .inr (orderFrom_parted hab).symm

theorem isLE_orderSteps
    (h : SteadyTo mode (orderFrom mode last (a :: p) (b :: q)) (a :: p) (b :: q))
    (hle : (orderFrom mode last (a :: p) (b :: q)).isLE) : (mode.orderSteps a b).isLE := by
  rcases orderSteps_of_steadyTo h with heq | heq
  · rw [heq]
    rfl
  · rwa [heq]

theorem orderFrom_trans {l₁ l₂ l₃ : Ordering} (hlast : l₁.isLE → l₂.isLE → l₃.isLE)
    (hpq : SteadyTo mode (orderFrom mode l₁ p q) p q)
    (hqr : SteadyTo mode (orderFrom mode l₂ q r) q r)
    (hpr : SteadyTo mode (orderFrom mode l₃ p r) p r)
    (hpq_le : (orderFrom mode l₁ p q).isLE) (hqr_le : (orderFrom mode l₂ q r).isLE) :
    (orderFrom mode l₃ p r).isLE := by
  induction p generalizing q r l₁ l₂ l₃ with
  | nil =>
    rcases r with _ | ⟨c, r⟩
    · rcases q with _ | ⟨b, q⟩
      · exact hlast hpq_le hqr_le
      · cases hqr_le
    · rfl
  | cons a p ih =>
    rcases q with _ | ⟨b, q⟩
    · cases hpq_le
    rcases r with _ | ⟨c, r⟩
    · cases hqr_le
    have hab := isLE_orderSteps hpq hpq_le
    have hbc := isLE_orderSteps hqr hqr_le
    have hac := TransCmp.isLE_trans hab hbc
    rcases orderSteps_of_steadyTo hpr with heq | heq
    · -- the first and the last step are equal, and so is the one between them
      have hca : (mode.orderSteps c a).isLE := by
        rw [OrientedCmp.eq_symm heq]
        rfl
      have hab_eq := OrientedCmp.isLE_antisymm hab (TransCmp.isLE_trans hbc hca)
      obtain ⟨hkey, hac⟩ := SortMode.orderSteps_eq_eq.1 heq
      obtain ⟨-, hab⟩ := SortMode.orderSteps_eq_eq.1 hab_eq
      have hbc : b.1 = c.1 := hab.symm.trans hac
      rw [orderFrom_same hab] at hpq_le
      rw [orderFrom_same hbc] at hqr_le
      have hpq := (hpq hab).2
      have hqr := (hqr hbc).2
      have hpr := (hpr hac).2
      rw [orderFrom_same hab] at hpq
      rw [orderFrom_same hbc] at hqr
      rw [orderFrom_same hac] at hpr ⊢
      exact ih TransCmp.isLE_trans hpq hqr hpr hpq_le hqr_le
    · rwa [← heq]

/-- On steady paths the comparison is transitive. -/
theorem order_trans (hpq : Steady mode p q) (hqr : Steady mode q r) (hpr : Steady mode p r)
    (hpq_le : (order mode p q).isLE) (hqr_le : (order mode q r).isLE) : (order mode p r).isLE :=
  orderFrom_trans (fun _ _ => rfl) hpq hqr hpr hpq_le hqr_le

/-! ## Paths that are not steady -/

/-- The path lies strictly between two others, wherever these start from. -/
def Between (mode : SortMode) (p q r : SortPath) : Prop :=
  ∀ last, orderFrom mode last p r = .lt ∧ orderFrom mode last r q = .lt

theorem Between.cons (hab : a.1 = b.1) (h : Between mode p q r) :
    Between mode (a :: p) (b :: q) (a :: r) := by
  intro last
  rw [orderFrom_same rfl, orderFrom_same hab]
  exact ⟨(h _).1, (h _).2⟩

/-- A path that parts from two others at a step that they share, with the smaller of their keys. -/
theorem between_of_orderKeys (hab : a.1 = b.1) (h : mode.orderKeys a.2 b.2 = .lt) :
    Between mode (a :: p) (b :: q) [(a.1 + 1, a.2)] := by
  intro last
  have hnext : a.1 ≠ a.1 + 1 := Nat.ne_of_lt (Nat.lt_succ_self _)
  rw [orderFrom_parted hnext, orderFrom_parted (hab ▸ hnext.symm)]
  constructor
  · have hself : mode.orderKeys a.2 a.2 = .eq := ReflCmp.compare_self
    rw [SortMode.orderSteps, compareLex, hself, compareOn]
    exact Nat.compare_eq_lt.2 (Nat.lt_succ_self _)
  · rw [SortMode.orderSteps, compareLex, h]
    rfl

theorem exists_between_of_not_steadyTo {c : Ordering} (h : ¬ SteadyTo mode c p q) :
    ∃ r, (Between mode p q r ∧ c ≠ .lt) ∨ (Between mode q p r ∧ c ≠ .gt) := by
  induction p generalizing q with
  | nil => exact absurd trivial h
  | cons a p ih =>
    rcases q with _ | ⟨b, q⟩
    · exact absurd trivial h
    · obtain ⟨hab, h⟩ := Classical.not_imp.1 h
      rcases Classical.not_and_iff_not_or_not.1 h with hkey | hrest
      · obtain ⟨hne, hc⟩ := not_or.1 hkey
        rcases hlt : mode.orderKeys a.2 b.2 with _ | _ | _
        · exact ⟨_, .inl ⟨between_of_orderKeys hab hlt, fun h => hc (hlt.trans h.symm)⟩⟩
        · exact absurd hlt hne
        · have hlt' : mode.orderKeys b.2 a.2 = .lt := OrientedCmp.lt_of_gt hlt
          exact ⟨_, .inr ⟨between_of_orderKeys hab.symm hlt', fun h => hc (hlt.trans h.symm)⟩⟩
      · obtain ⟨r, ⟨hr, hc⟩ | ⟨hr, hc⟩⟩ := ih hrest
        · exact ⟨a :: r, .inl ⟨hr.cons hab, hc⟩⟩
        · exact ⟨b :: r, .inr ⟨hr.cons hab.symm, hc⟩⟩

/-- If two paths are not steady, some path lies between them the wrong way round. -/
theorem exists_between (h : ¬ Steady mode p q) :
    ∃ r, (order mode p r = .lt ∧ order mode r q = .lt ∧ order mode p q ≠ .lt) ∨
      (order mode q r = .lt ∧ order mode r p = .lt ∧ order mode q p ≠ .lt) := by
  obtain ⟨r, ⟨hr, hc⟩ | ⟨hr, hc⟩⟩ := exists_between_of_not_steadyTo h
  · exact ⟨r, .inl ⟨(hr .eq).1, (hr .eq).2, hc⟩⟩
  · refine ⟨r, .inr ⟨(hr .eq).1, (hr .eq).2, ?_⟩⟩
    rw [order_swap]
    cases hpq : order mode p q with
    | lt => simp
    | eq => simp
    | gt => exact absurd hpq hc

end SortPath

end Olap
