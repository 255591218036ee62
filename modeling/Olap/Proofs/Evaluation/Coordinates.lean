import Olap.Proofs.Catalog.Regular
import Olap.Proofs.Evaluation.Frame

/-!
# Contexts that are coordinates

In a regular cube the members and hierarchies of the cube are a closed domain, and a context that is a
coordinate of the cube stays one when tuples of members of the cube are made current.
-/

set_option autoImplicit false

namespace Olap

variable {c : Cube}

/-- Navigation does not lead out of a regular cube. -/
theorem Cube.Regular.closed (hc : c.Regular) : (Domain.ofCube c).Closed c where
  hierarchies _ hh := hh
  members h hh m hm := ⟨h, hh, hm⟩
  ancestors := by
    rintro m ⟨h, hh, hm⟩ a ha
    exact ⟨h, hh, (hc.hierarchy h hh).ancestors m hm a ha⟩

theorem Cube.Coordinate.within {κ : List Member} (hκ : c.Coordinate κ) :
    RowWithin (Domain.ofCube c) κ := by
  intro m hm
  obtain ⟨i, hi⟩ := List.getElem?_of_mem hm
  obtain ⟨h, hh, hm⟩ := hκ.hierarchy_of_getElem? hi
  exact ⟨h, List.mem_of_getElem? hh, hm⟩

namespace EvalState

variable {s t : EvalState}

theorem context_setMember (s : EvalState) (m : Member) :
    (s.setMember m).context = s.context.set m.hierarchyOrdinal m := by
  unfold setMember
  split
  · rfl
  · rename_i h
    exact (List.set_eq_of_length_le (List.getElem?_eq_none_iff.1 h)).symm

theorem context_setRow (s : EvalState) (r : Row) :
    (s.setRow r).context = r.foldl (fun κ m => κ.set m.hierarchyOrdinal m) s.context := by
  induction r generalizing s with
  | nil => rfl
  | cons m r ih =>
    show ((s.setMember m).setRow r).context = _
    rw [ih, context_setMember, List.foldl_cons]

theorem coordinate_setRow (hc : c.Regular) (hs : c.Coordinate s.context) {r : Row}
    (hr : RowWithin (Domain.ofCube c) r) : c.Coordinate (s.setRow r).context := by
  induction r generalizing s with
  | nil => exact hs
  | cons m r ih =>
    have hm : c.Coordinate (s.setMember m).context := by
      rw [context_setMember]
      exact hc.coordinate_set hs (hr m List.mem_cons_self)
    exact ih hm fun n hn => hr n (List.mem_cons_of_mem m hn)

/-- Whether the execution has to stop does not depend on how often it was asked. -/
theorem Frame.stopped? (h : Frame s t) : t.execution.stopped? = s.execution.stopped? := by
  obtain ⟨checks, hx⟩ := h.execution
  rw [hx]
  rfl

/-- The facts queue no requests. -/
theorem Frame.reader_memory (h : Frame s t) {facts : List Fact} (hs : s.reader = .memory facts) :
    t.reader = .memory facts := by
  obtain ⟨more, hmore⟩ := h.reader
  rw [hmore, hs]
  rfl

end EvalState

theorem Execution.checkRound_of_running {x : Execution} (hx : x.stopped? = none) (interval round) :
    (x.checkRound interval round).1 = .ok () := by
  unfold checkRound check
  split
  · rw [hx]
  · rfl

def Sample.environment : Environment := ⟨cube, {}, []⟩

end Olap
