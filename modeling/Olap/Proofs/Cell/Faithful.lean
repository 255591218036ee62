import Olap.Cell.Reader
import Olap.Proofs.Catalog.Regular

/-!
# Layers that hold true cells

`CellReader.Faithful c facts r`: the reader `r` is the facts themselves or one batching layer above them,
the cells that the layer has loaded are those of the facts, and what it has queued are coordinates of
the cube `c`. Requests and loading keep a reader faithful: cells are told apart by the names of their
coordinates, and in a regular cube these determine the coordinate.
-/

set_option autoImplicit false

namespace Olap

namespace CellReader

variable {c : Cube} {facts : List Fact} {r : CellReader} {κ : List Member}

/-- Loaded cells with the values that the facts have at every coordinate of the cell's name. -/
def TrueCells (c : Cube) (facts : List Fact) (loaded : List (List String × Option Double)) : Prop :=
  ∀ key v, loaded.lookup key = some v →
    ∀ κ, c.Coordinate κ → cellKey κ = key → v = totalAt facts κ

/-- The facts, or a layer that holds true cells (module doc). -/
inductive Faithful (c : Cube) (facts : List Fact) : CellReader → Prop
  | memory : Faithful c facts (memory facts)
  | batching {loaded : List (List String × Option Double)} {queue : List (List Member)}
      {batches : Nat} (hl : TrueCells c facts loaded) (hq : ∀ κ ∈ queue, c.Coordinate κ) :
      Faithful c facts (batching (memory facts) loaded queue batches)

theorem faithful_batched (c : Cube) (facts : List Fact) :
    (memory facts).batched.Faithful c facts :=
  .batching (by rintro key v ⟨⟩) (List.forall_mem_nil _)

/-- A faithful reader answers with the true cell, or queues the request. -/
theorem Faithful.get (h : r.Faithful c facts) (hκ : c.Coordinate κ) :
    r.get κ = (.ready (totalAt facts κ), r) ∨
      ∃ r', r.get κ = (.pending, r') ∧ r'.Faithful c facts ∧ r'.pendingCount ≠ 0 := by
  rcases h with _ | ⟨hl, hq⟩
  · exact .inl rfl
  rename_i loaded queue batches
  rw [CellReader.get]
  rcases hlook : loaded.lookup (cellKey κ) with _ | v
  · refine .inr ⟨_, rfl, .batching hl ?_, ?_⟩
    · split
      · exact hq
      · intro μ hμ
        rcases List.mem_append.1 hμ with hμ | hμ
        · exact hq μ hμ
        · rw [List.mem_singleton.1 hμ]
          exact hκ
    · split
      · rename_i hany
        rcases queue with _ | ⟨μ, queue⟩
        · cases hany
        · simp [pendingCount]
      · simp [pendingCount]
  · rw [hl _ v hlook κ hκ rfl]
    exact .inl rfl

theorem TrueCells.cons (hc : c.Regular) {loaded : List (List String × Option Double)}
    (hl : TrueCells c facts loaded) (hκ : c.Coordinate κ) :
    TrueCells c facts ((cellKey κ, totalAt facts κ) :: loaded) := by
  intro key v hlook μ hμ hkey
  rw [List.lookup_cons] at hlook
  split at hlook
  · rename_i heq
    cases hlook
    have heq : cellKey μ = cellKey κ := by rw [hkey, eq_of_beq heq]
    rw [hc.coordinate_eq hμ hκ heq]
  · exact hl key v hlook μ hμ hkey

theorem fetch_faithful (hc : c.Regular) {loaded : List (List String × Option Double)}
    (hl : TrueCells c facts loaded) {queue : List (List Member)}
    (hq : ∀ κ ∈ queue, c.Coordinate κ) :
    ∃ loaded', fetch (memory facts) loaded queue = (memory facts, loaded') ∧
      TrueCells c facts loaded' := by
  induction queue generalizing loaded with
  | nil => exact ⟨loaded, rfl, hl⟩
  | cons κ queue ih =>
    exact ih (hl.cons hc (hq κ List.mem_cons_self)) fun μ hμ => hq μ (List.mem_cons_of_mem κ hμ)

theorem Faithful.load (hc : c.Regular) (h : r.Faithful c facts) : r.load.2.Faithful c facts := by
  rcases h with _ | ⟨hl, hq⟩
  · exact .memory
  rename_i loaded queue batches
  rcases queue with _ | ⟨κ, queue⟩
  · exact .batching hl hq
  · obtain ⟨loaded', hfetch, hl'⟩ := fetch_faithful hc hl hq
    rw [CellReader.load, hfetch]
    · exact .batching hl' (List.forall_mem_nil _)
    · rintro ⟨⟩

end CellReader

end Olap
