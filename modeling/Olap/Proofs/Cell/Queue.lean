import Mathlib.Data.List.Sections
import Mathlib.Data.Set.Card
import Olap.Proofs.Cell.Layers
import Olap.Proofs.Evaluation.Mirrors

/-!
# The queue of one layer

`CellReader.Batching C facts r`: the reader is one layer above the facts, and what it has queued is in
question by `C` and not loaded. Requests and loading keep it so. A load with something queued adds a
cell to those that are known (`CellReader.Batching.load_new`), so it makes the coordinates of a cube
fewer that are not (`CellReader.Batching.ncard_unknown_load`). Requests after which nothing is queued
were all answered (`CellReader.answersAll_of_settled`).
-/

set_option autoImplicit false

namespace Olap

namespace Cube

/-- The coordinates of a cube: they choose a member of each hierarchy. -/
def coordinates (c : Cube) : List (List Member) := (c.hierarchies.map (·.members)).sections

theorem mem_coordinates {c : Cube} {κ : List Member} (hκ : c.Coordinate κ) : κ ∈ c.coordinates := by
  refine List.mem_sections.2 (List.forall₂_iff_get.2 ⟨?_, fun i hi hj => ?_⟩)
  · rw [List.length_map]
    exact hκ.length
  · rw [List.length_map] at hj
    rw [List.get_eq_getElem, List.get_eq_getElem, List.getElem_map]
    exact hκ.member i _ (List.getElem?_eq_getElem hj) _ (List.getElem?_eq_getElem hi)

theorem finite_coordinates (c : Cube) : {κ | c.Coordinate κ}.Finite :=
  c.coordinates.finite_toSet.subset fun _ hκ => mem_coordinates hκ

theorem ncard_coordinates_le (c : Cube) : {κ | c.Coordinate κ}.ncard ≤ c.coordinates.length := by
  classical
  have hsub : {κ | c.Coordinate κ} ⊆ (c.coordinates.toFinset : Set (List Member)) := fun κ hκ =>
    List.mem_toFinset.2 (mem_coordinates hκ)
  calc {κ | c.Coordinate κ}.ncard
      ≤ (c.coordinates.toFinset : Set (List Member)).ncard :=
        Set.ncard_le_ncard hsub (Finset.finite_toSet _)
    _ = c.coordinates.toFinset.card := Set.ncard_coe_finset _
    _ ≤ c.coordinates.length := List.toFinset_card_le _

end Cube

namespace CellReader

variable {C : List Member → Prop} {facts : List Fact} {r : CellReader} {κ : List Member}
variable {κs : List (List Member)}

/-- The number of batches that the layer at the top has loaded. -/
def batches : CellReader → Nat
  | memory _ => 0
  | batching _ _ _ batches => batches

/-! ## Requests -/

/-- The reader after requests for several cells. -/
def asked (r : CellReader) (κs : List (List Member)) : CellReader := r.after (κs.map .get)

theorem asked_append (r : CellReader) (κs μs : List (List Member)) :
    r.asked (κs ++ μs) = (r.asked κs).asked μs := by
  rw [asked, List.map_append]
  exact r.after_append _ _

theorem asked_queueing (r : CellReader) (κs : List (List Member)) :
    ∃ more, r.asked κs = r.queueing more := by
  induction κs generalizing r with
  | nil => exact ⟨[], r.queueing_nil.symm⟩
  | cons κ κs ih =>
    obtain ⟨more, hmore⟩ := ih (r.get κ).2
    have hasked : r.asked (κ :: κs) = (r.get κ).2.queueing more := hmore
    rcases r.get_queueing κ with h | h
    · exact ⟨more, by rw [hasked, h]⟩
    · exact ⟨[κ] ++ more, by rw [hasked, h, queueing_queueing]⟩

theorem batches_asked (r : CellReader) (κs : List (List Member)) :
    (r.asked κs).batches = r.batches := by
  obtain ⟨more, hmore⟩ := r.asked_queueing κs
  rw [hmore]
  cases r <;> rfl

/-- Requests make nothing known. -/
theorem knows_asked_iff : (r.asked κs).Knows κ ↔ r.Knows κ := by
  obtain ⟨more, hmore⟩ := r.asked_queueing κs
  rw [hmore]
  cases r with
  | memory facts => exact Iff.rfl
  | batching inner loaded queue batches =>
    show (batching inner loaded (queue ++ more) batches).Knows κ ↔ _
    rw [knows_batching_iff, knows_batching_iff]

theorem Awaits.pendingCount_ne_zero (h : r.Awaits κ) : r.pendingCount ≠ 0 := by
  cases r with
  | memory facts => exact h.elim
  | batching inner loaded queue batches =>
    obtain ⟨μ, hμ, -⟩ := h
    exact List.length_pos_iff.2 (List.ne_nil_of_mem hμ) |>.ne'

theorem pendingCount_of_pending (h : (r.get κ).1 = .pending) : (r.get κ).2.pendingCount ≠ 0 :=
  (awaits_of_pending h).pendingCount_ne_zero

/-- Each of the requests, made one after the other, is answered at once. -/
def AnswersAll (r : CellReader) : List (List Member) → Prop
  | [] => True
  | κ :: κs => r.Knows κ ∧ (r.get κ).2.AnswersAll κs

/-- Requests after which nothing is queued were all answered. -/
theorem answersAll_of_settled (h : (r.asked κs).pendingCount = 0) : r.AnswersAll κs := by
  induction κs generalizing r with
  | nil => trivial
  | cons κ κs ih =>
    refine ⟨?_, ih h⟩
    rcases r.knows_or_pending κ with hκ | hκ
    · exact hκ
    · obtain ⟨more, hmore⟩ := (r.get κ).2.asked_queueing κs
      have hle := (r.get κ).2.pendingCount_queueing more
      have hne := pendingCount_of_pending hκ
      have hzero : ((r.get κ).2.asked κs).pendingCount = 0 := h
      rw [hmore] at hzero
      omega

/-! ## One layer above the facts -/

/-- One layer above the facts, which has queued what is in question and not loaded. -/
inductive Batching (C : List Member → Prop) (facts : List Fact) : CellReader → Prop
  | layer {loaded : List (List String × Option Double)} {queue : List (List Member)} {batches : Nat}
      (hq : ∀ κ ∈ queue, C κ ∧ loaded.lookup (cellKey κ) = none) :
      Batching C facts (batching (memory facts) loaded queue batches)

namespace Batching

theorem batched (C : List Member → Prop) (facts : List Fact) :
    (CellReader.memory facts).batched.Batching C facts :=
  .layer (List.forall_mem_nil _)

theorem get (h : r.Batching C facts) (hκ : C κ) : (r.get κ).2.Batching C facts := by
  obtain @⟨loaded, queue, batches, hq⟩ := h
  rw [CellReader.get]
  rcases hlook : loaded.lookup (cellKey κ) with _ | v
  · refine .layer ?_
    split
    · exact hq
    · exact List.forall_mem_append.2 ⟨hq, List.forall_mem_singleton.2 ⟨hκ, hlook⟩⟩
  · exact .layer hq

theorem fetch_memory (loaded : List (List String × Option Double)) (queue : List (List Member)) :
    (fetch (CellReader.memory facts) loaded queue).1 = .memory facts := by
  induction queue generalizing loaded with
  | nil => rfl
  | cons κ queue ih => exact ih _

theorem load (h : r.Batching C facts) : r.load.2.Batching C facts := by
  obtain @⟨loaded, _ | ⟨κ, queue⟩, batches, hq⟩ := h
  · exact .layer hq
  · rw [CellReader.load]
    · dsimp only
      rw [fetch_memory]
      exact .layer (List.forall_mem_nil _)
    · rintro ⟨⟩

theorem visit (r : CellReader) (call : ReaderCall) (h : r.Batching C facts) (hcall : call.Over C) :
    (r.visit call).Batching C facts := by
  cases call with
  | get κ => exact h.get hcall
  | load => exact h.load

theorem asked (h : r.Batching C facts) (hκs : ∀ κ ∈ κs, C κ) : (r.asked κs).Batching C facts := by
  refine after_inv visit h fun call hcall => ?_
  obtain ⟨κ, hκ, rfl⟩ := List.mem_map.1 hcall
  exact hκs κ hκ

/-- A load with something queued is a batch, and makes a cell known that was not. -/
theorem load_new (h : r.Batching C facts) (hp : r.pendingCount ≠ 0) :
    r.load.2.batches = r.batches + 1 ∧ ∃ κ, C κ ∧ ¬ r.Knows κ ∧ r.load.2.Knows κ := by
  obtain @⟨loaded, _ | ⟨κ, queue⟩, batches, hq⟩ := h
  · exact absurd rfl hp
  · obtain ⟨hκ, hlook⟩ := hq κ List.mem_cons_self
    rw [CellReader.load]
    · refine ⟨rfl, κ, hκ, fun hknows => ?_, ?_⟩
      · rw [knows_batching_iff, hlook] at hknows
        cases hknows
      · exact knows_batching_iff.2 (lookup_fetch_memory List.mem_cons_self)
    · rintro ⟨⟩

end Batching

/-! ## Coordinates that are not known -/

/-- The coordinates of the cube that the reader does not answer at once. -/
def unknown (c : Cube) (r : CellReader) : Set (List Member) := {κ | c.Coordinate κ ∧ ¬ r.Knows κ}

theorem finite_unknown (c : Cube) (r : CellReader) : (r.unknown c).Finite :=
  c.finite_coordinates.subset fun _ hκ => hκ.1

theorem ncard_unknown_le (c : Cube) (r : CellReader) :
    (r.unknown c).ncard ≤ {κ | c.Coordinate κ}.ncard :=
  Set.ncard_le_ncard (fun _ hκ => hκ.1) c.finite_coordinates

theorem unknown_asked (c : Cube) (r : CellReader) (κs : List (List Member)) :
    (r.asked κs).unknown c = r.unknown c := by
  unfold unknown
  simp only [knows_asked_iff]

/-- A load with something queued leaves fewer coordinates unknown. -/
theorem Batching.ncard_unknown_load {c : Cube} (h : r.Batching c.Coordinate facts)
    (hp : r.pendingCount ≠ 0) : (r.load.2.unknown c).ncard < (r.unknown c).ncard := by
  obtain ⟨-, κ, hκ, hunknown, hknown⟩ := h.load_new hp
  refine Set.ncard_lt_ncard ⟨?_, fun hsub => ?_⟩ (r.finite_unknown c)
  · exact fun μ hμ => ⟨hμ.1, fun hknows => hμ.2 hknows.load⟩
  · exact (hsub ⟨hκ, hunknown⟩).2 hknown

end CellReader

end Olap
