import Olap.Catalog.Member
import Olap.Double

/-!
# Cell readers

A cell is addressed by a full coordinate, one member per hierarchy in the order of the hierarchies.
A reader answers at once, or queues the request and answers `pending`; the caller then ends what it
is doing, has everything queued loaded, and starts again.

The reader at the bottom sums facts. A fact holds members of some hierarchies and counts for every
coordinate that stands at or above each of them. Any number of batching layers may lie above it:
each of them keeps the cells that it has loaded and queues all others.
-/

set_option autoImplicit false

namespace Olap

/-- A recorded number with the members that it was recorded for. -/
structure Fact where
  members : List Member
  value : Double

/-- Whether each member of the fact is the coordinate's member on its hierarchy or lies below. -/
def Fact.matchesAt (f : Fact) (coordinate : List Member) : Bool :=
  f.members.all fun m => coordinate[m.hierarchyOrdinal]?.any (m.isWithin ·)

/-- The sum of all facts that match a coordinate, in the order of the facts; no number if there is
none. -/
def totalAt (facts : List Fact) (coordinate : List Member) : Option Double :=
  facts.foldl
    (fun total f => if f.matchesAt coordinate then some (total.getD 0 + f.value) else total) none

/-- The answer to a request for a cell. -/
inductive CellLookup where
  /-- The cell is known; a cell without a number is empty. -/
  | ready (value : Option Double)
  /-- The request has been queued. -/
  | pending
  deriving Repr

/-- What tells cells apart: the unique names of the coordinate's members. -/
def cellKey (coordinate : List Member) : List String := coordinate.map (·.uniqueName)

/-- A source of cells: facts below any number of batching layers. -/
inductive CellReader where
  | memory (facts : List Fact)
  /-- A layer with its loaded cells, its queued coordinates in the order of the requests, and the
  number of batches that it has loaded. -/
  | batching (inner : CellReader) (loaded : List (List String × Option Double))
      (queue : List (List Member)) (batches : Nat)

namespace CellReader

/-- A layer above `inner` that has loaded nothing. -/
def batched (inner : CellReader) : CellReader := batching inner [] [] 0

/-- Requests one cell. -/
def get : CellReader → List Member → CellLookup × CellReader
  | memory facts, coordinate => (.ready (totalAt facts coordinate), memory facts)
  | batching inner loaded queue batches, coordinate =>
    let key := cellKey coordinate
    match loaded.lookup key with
    | some value => (.ready value, batching inner loaded queue batches)
    | none =>
      let queue :=
        if queue.any (cellKey · == key) then queue else queue ++ [coordinate]
      (.pending, batching inner loaded queue batches)

/-- Requests queued cells from the layer below, keeping those that it knows. A cell that the layer
below has only queued is requested again when it is next needed. -/
def fetch (inner : CellReader) (loaded : List (List String × Option Double)) :
    List (List Member) → CellReader × List (List String × Option Double)
  | [] => (inner, loaded)
  | coordinate :: rest =>
    match inner.get coordinate with
    | (.ready value, inner) => fetch inner ((cellKey coordinate, value) :: loaded) rest
    | (.pending, inner) => fetch inner loaded rest

/-- Loads everything queued as one batch; also gives the number of cells that are known now and were
not before. -/
def load : CellReader → Nat × CellReader
  | memory facts => (0, memory facts)
  | batching inner loaded [] batches => (0, batching inner loaded [] batches)
  | batching inner loaded queue batches =>
    let (inner, loadedNow) := fetch inner loaded queue
    (loadedNow.length - loaded.length, batching inner loadedNow [] (batches + 1))

/-- The number of queued requests. -/
def pendingCount : CellReader → Nat
  | memory _ => 0
  | batching _ _ queue _ => queue.length

/-- What a batching layer has done so far. -/
structure LayerCounts where
  batches : Nat
  loaded : Nat
  pending : Nat
  deriving DecidableEq, Repr

/-- The counts of all batching layers, the innermost first. -/
def counts : CellReader → List LayerCounts
  | memory _ => []
  | batching inner loaded queue batches =>
    inner.counts ++ [⟨batches, loaded.length, queue.length⟩]

/-- `n` batching layers above `inner`. -/
def layered (inner : CellReader) : Nat → CellReader
  | 0 => inner
  | n + 1 => (inner.layered n).batched

end CellReader

end Olap
