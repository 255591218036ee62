import Olap.Tuple.List

/-!
# Sources of tuples

A `TupleSource` stands for a sequence of tuples without holding them all: a list, every tuple of one
source joined with every tuple of another, or one column of a source. A `CursorState` is a walk along
the sequence, made up of walks along the parts of the source: `fresh` starts it, `forward` moves on to
the next tuple, which is then the `current` one, and `foldM` visits every tuple on the way.
`TupleSource.rows` is the plain list of tuples that a source stands for.
-/

set_option autoImplicit false

namespace Olap

/-- A sequence of tuples, made on demand. -/
inductive TupleSource where
  | list (tuples : TupleList)
  /-- Every tuple of the left source followed by every tuple of the right one; the right source
  varies faster. -/
  | cross (left right : TupleSource)
  /-- One column. -/
  | slice (source : TupleSource) (column : Nat)

/-- A walk along a source, as far as it has come. -/
inductive CursorState where
  /-- The place that comes next, and that of the current tuple. -/
  | list (next : Nat) (current : Option Nat)
  /-- The walk along the left source, the one along the right source for the current tuple on the left,
  and the current tuple. -/
  | cross (left : CursorState) (right : Option CursorState) (current : Row)
  | slice (inner : CursorState)

namespace TupleSource

/-- The number of members of each tuple. -/
def arity : TupleSource → Nat
  | list l => l.arity
  | cross s t => TupleList.joinedArity s.arity t.arity
  | slice _ _ => 1

/-- The number of tuples. -/
def size : TupleSource → Nat
  | list l => l.size
  | cross s t => s.size * t.size
  | slice s _ => s.size

/-- All tuples in order. -/
def rows : TupleSource → List Row
  | list l => l.rows
  | cross s t => s.rows.flatMap fun r => t.rows.map (r ++ ·)
  | slice s c => s.rows.map fun r => r[c]?.toList

/-- A column of a source. -/
def sliced (s : TupleSource) (column : Nat) : Except CalcError TupleSource :=
  if column < s.arity then .ok (slice s column) else .error (TupleList.noColumn column s.arity)

/-- A column of a source, in its simplest form: a column of a list is a list, and a source of one
column is that column. -/
def project (s : TupleSource) (column : Nat) : Except CalcError TupleSource :=
  match s with
  | list l => (l.column column).map list
  | cross s t => (cross s t).sliced column
  | slice s c =>
    if column = 0 then .ok (slice s c) else .error (TupleList.noColumn column 1)

/-! ## Walking along a source -/

/-- A walk that has not been moved. -/
def fresh : TupleSource → CursorState
  | list _ => .list 0 none
  | cross s _ => .cross s.fresh none []
  | slice s _ => .slice s.fresh

/-- The current tuple, which is empty before the first move and behind the last tuple. -/
def current : TupleSource → CursorState → Row
  | list l, .list _ place => place.elim [] l.row
  | cross _ _, .cross _ _ row => row
  | slice s c, .slice inner => (s.current inner)[c]?.toList
  | _, _ => []

/-- Moves a walk along a join on to the next tuple on the left that has one on the right, where `anew`
is what the first move along the right source gives. No more than `moves` moves are made on the left. -/
def advance (forwardLeft : CursorState → Bool × CursorState) (anew : Bool × CursorState)
    (join : CursorState → CursorState → Row) : Nat → CursorState → Bool × CursorState
  | 0, left => (false, .cross left none [])
  | moves + 1, left =>
    match forwardLeft left with
    | (false, left) => (false, .cross left none [])
    | (true, left) =>
      match anew with
      | (true, right) => (true, .cross left (some right) (join left right))
      | (false, _) => advance forwardLeft anew join moves left

/-- Moves on to the next tuple; says whether there is one. A walk along a join goes on along the right
source, and when that is at its end, starts it anew for the next tuple on the left. -/
def forward : TupleSource → CursorState → Bool × CursorState
  | list l, .list next _ =>
    if next < l.size then (true, .list (next + 1) (some next)) else (false, .list next none)
  | cross s t, .cross left right _ =>
    let join (left right : CursorState) : Row := s.current left ++ t.current right
    match right.map t.forward with
    | some (true, right) => (true, .cross left (some right) (join left right))
    | _ => advance s.forward (t.forward t.fresh) join (s.size + 1) left
  | slice s _, .slice inner =>
    let (found, inner) := s.forward inner
    (found, .slice inner)
  | _, c => (false, c)

/-- Visits at most `count` tuples that a walk has ahead of it. -/
@[specialize]
def foldFrom {m : Type → Type} [Monad m] {β : Type} (s : TupleSource) (f : β → Row → m β) :
    Nat → CursorState → β → m β
  | 0, _, b => pure b
  | count + 1, c, b =>
    match s.forward c with
    | (true, c) => do
      let b ← f b (s.current c)
      foldFrom s f count c b
    | (false, _) => pure b

/-- Visits every tuple in order. -/
@[inline]
def foldM {m : Type → Type} [Monad m] {β : Type} (s : TupleSource) (f : β → Row → m β) (b : β) :
    m β :=
  s.foldFrom f s.size s.fresh b

/-- Whether two walks have the same tuples ahead of them. No more than `moves` moves are made. -/
def sameAhead (s t : TupleSource) : Nat → CursorState → CursorState → Bool
  | 0, _, _ => false
  | moves + 1, c, d =>
    match s.forward c, t.forward d with
    | (true, c), (true, d) => s.current c == t.current d && s.sameAhead t moves c d
    | (false, _), (false, _) => true
    | _, _ => false

/-- Whether two sources hold the same tuples in the same order. -/
def sameRows (s t : TupleSource) : Bool :=
  s.arity == t.arity && s.sameAhead t (s.size + 1) s.fresh t.fresh

/-- The first members of all tuples. -/
def leadingMembers (s : TupleSource) : List Member := s.rows.filterMap List.head?

end TupleSource

end Olap
