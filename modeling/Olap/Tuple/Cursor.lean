import Olap.Tuple.Source

/-!
# Cursors and iterators

A cursor moves forwards along a source, one tuple at a time; before the first move and after the
last tuple it stands on no tuple. An iterator hands out the tuples and can tell beforehand whether
there is another.
-/

set_option autoImplicit false

namespace Olap

/-- A walk along a source. -/
structure TupleCursor where
  source : TupleSource
  state : CursorState

namespace TupleCursor

/-- A cursor before the first tuple. -/
def ofSource (s : TupleSource) : TupleCursor := ⟨s, s.fresh⟩

def arity (c : TupleCursor) : Nat := c.source.arity

/-- Moves to the next tuple; says whether there is one. -/
def forward (c : TupleCursor) : Bool × TupleCursor :=
  let (found, state) := c.source.forward c.state
  (found, { c with state })

/-- The current tuple, which is empty where the cursor stands on none. -/
def current (c : TupleCursor) : Row := c.source.current c.state

/-- A member of the current tuple. -/
def member? (c : TupleCursor) (column : Nat) : Option Member := c.current[column]?

end TupleCursor

/-- A cursor that has possibly been moved ahead, with what was found there. -/
structure TupleIterator where
  cursor : TupleCursor
  peeked : Option Bool

namespace TupleIterator

def ofSource (s : TupleSource) : TupleIterator := ⟨.ofSource s, none⟩

/-- Whether there is another tuple. -/
def hasNext (i : TupleIterator) : Bool × TupleIterator :=
  match i.peeked with
  | some found => (found, i)
  | none =>
    let (found, cursor) := i.cursor.forward
    (found, ⟨cursor, some found⟩)

/-- The next tuple, if there is one. -/
def next (i : TupleIterator) : Option Row × TupleIterator :=
  let (found, i) := i.hasNext
  (if found then some i.cursor.current else none, { i with peeked := none })

end TupleIterator

end Olap
