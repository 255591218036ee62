import Olap.Proofs.Evaluation.Coordinates

/-!
# Moves in a session

In a session one state is used for many evaluations of the same tree, between which the context and
the flag are changed and changes are taken back (`Move`). As long as only members of the cube are made
current, the context is a coordinate, and so is whatever it can be taken back to
(`EvalState.Placed.after`).
-/

set_option autoImplicit false

namespace Olap

/-! ## Moves -/

/-- What can be done in a session. -/
inductive Move where
  | setMember (m : Member)
  | setNonEmpty (b : Bool)
  | restore (mark : Nat)
  | evaluate

namespace Move

/-- The state after a move, in a session that evaluates a tree at an address. -/
def run (env : Environment) (c : Calc) (a : Address) (s : EvalState) : Move → EvalState
  | setMember m => s.setMember m
  | setNonEmpty b => s.setNonEmpty b
  | restore mark => s.restore mark
  | evaluate => ((c.evaluate a).exec env s).2

/-- A move makes members of the domain current only. -/
def Within (D : Domain) : Move → Prop
  | setMember m => D.member m
  | _ => True

end Move

def Move.visit (r : Row) : List Move := r.map .setMember

theorem Move.visit_within {D : Domain} {r : Row} (hr : RowWithin D r) :
    ∀ move ∈ visit r, move.Within D := by
  intro move hmove
  obtain ⟨m, hm, rfl⟩ := List.mem_map.1 hmove
  exact hr m hm

def EvalState.after (env : Environment) (c : Calc) (a : Address) (s : EvalState)
    (moves : List Move) : EvalState :=
  moves.foldl (Move.run env c a) s

namespace EvalState

variable {env : Environment} {c : Calc} {a : Address} {s : EvalState}

theorem after_append (moves more : List Move) :
    s.after env c a (moves ++ more) = (s.after env c a moves).after env c a more :=
  List.foldl_append

theorem after_visit (r : Row) : s.after env c a (Move.visit r) = s.setRow r := by
  rw [after, Move.visit, List.foldl_map]
  rfl

end EvalState

/-! ## States in place -/

/-- What can be taken back is a member of the cube, in its place. -/
def Change.Within (c : Cube) : Change → Prop
  | member o previous => (Domain.ofCube c).member previous ∧ previous.hierarchyOrdinal = o
  | nonEmpty _ => True

namespace EvalState

/-- The context is a coordinate, and so is whatever it can be taken back to. -/
structure Placed (c : Cube) (s : EvalState) : Prop where
  coordinate : c.Coordinate s.context
  undo : ∀ change ∈ s.undo, change.Within c

variable {c : Cube} {s t : EvalState}

theorem placed_start (c : Cube) (reader : CellReader) (execution : Execution) (counts : CallCounts) :
    (start c reader execution counts).Placed c :=
  ⟨Cube.coordinate_defaultMembers c, List.forall_mem_nil _⟩

namespace Placed

theorem frame (h : s.Placed c) (hf : s.Frame t) : t.Placed c :=
  ⟨hf.context ▸ h.coordinate, hf.undo ▸ h.undo⟩

theorem setNonEmpty (h : s.Placed c) (b : Bool) : (s.setNonEmpty b).Placed c :=
  ⟨h.coordinate, List.forall_mem_cons.2 ⟨trivial, h.undo⟩⟩

variable (hc : c.Regular)
include hc

theorem setMember (h : s.Placed c) {m : Member} (hm : (Domain.ofCube c).member m) :
    (s.setMember m).Placed c := by
  refine ⟨?_, ?_⟩
  · rw [context_setMember]
    exact hc.coordinate_set h.coordinate hm
  · unfold EvalState.setMember
    split
    · rename_i previous hprev
      -- what was current in the place of `m` belongs to the hierarchy in that place
      obtain ⟨k, hk, hmem⟩ := h.coordinate.hierarchy_of_getElem? hprev
      refine List.forall_mem_cons.2 ⟨?_, h.undo⟩
      exact ⟨⟨k, List.mem_of_getElem? hk, hmem⟩, hc.ordinal_of_mem hk hmem⟩
    · exact h.undo

theorem undoOne (h : s.Placed c) : s.undoOne.Placed c := by
  obtain ⟨hκ, hundo⟩ := h
  unfold EvalState.undoOne
  split
  · exact ⟨hκ, hundo⟩
  · rename_i previous rest hlast
    rw [hlast] at hundo
    obtain ⟨⟨hm, rfl⟩, hrest⟩ := List.forall_mem_cons.1 hundo
    exact ⟨hc.coordinate_set hκ hm, hrest⟩
  · rename_i b rest hlast
    rw [hlast] at hundo
    exact ⟨hκ, (List.forall_mem_cons.1 hundo).2⟩

theorem restore (h : s.Placed c) (mark : Nat) : (s.restore mark).Placed c := by
  rw [EvalState.restore]
  generalize s.undo.length - mark = n
  induction n generalizing s with
  | zero => exact h
  | succ n ih => exact ih (h.undoOne hc)

end Placed

end EvalState

end Olap
