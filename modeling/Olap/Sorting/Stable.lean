import Olap.Sorting.Small

/-!
# Stable sorting

`stableSort` sorts a list of any length. A long list is cut into runs: stretches that are sorted
already, and between them stretches that are left as they are or sorted at once, if the list is not
too long. Neighbouring runs are merged in a balanced order (`joinAll`), where runs that are not sorted
are only put together for as long as possible; what is left unsorted goes to `quickSort`.
-/

set_option autoImplicit false

namespace Olap.Sorting

variable {α : Type}

/-! ## Pivots -/

/-- The middle one of three places. -/
def medianOfThree (lt : Nat → Nat → Bool) (a b c : Nat) : Nat :=
  if lt a b == lt a c then (if lt b c == lt a b then b else c) else a

/-- A place near the middle of the order: from three stretches of a length each one such place, and
the middle one of these. -/
def medianOfMedians (lt : Nat → Nat → Bool) (length a b c : Nat) : Nat :=
  if length < 8 then medianOfThree lt a b c
  else
    let part := length / 8
    let median (start : Nat) := medianOfMedians lt part start (start + 4 * part) (start + 7 * part)
    medianOfThree lt (median a) (median b) (median c)

/-- The place of the element around which a list is parted. -/
def pivotPlace (less : α → α → Bool) (xs : List α) : Nat :=
  let elements := xs.toArray
  let lt (i j : Nat) : Bool :=
    match elements[i]?, elements[j]? with
    | some x, some y => less x y
    | _, _ => false
  let part := elements.size / 8
  medianOfMedians lt part 0 (4 * part) (7 * part)

/-! ## Runs -/

structure Run (α : Type) where
  items : List α
  sorted : Bool

/-- The elements of a run in order; `sort` is used if they are not yet sorted. -/
def Run.settle (sort : List α → List α) (run : Run α) : List α :=
  if run.sorted then run.items else sort run.items

/-- The number of elements that follow `x` each in one `step` from the one before. -/
def chainLength (step : α → α → Bool) (x : α) : List α → Nat
  | [] => 0
  | y :: ys => if step x y then chainLength step y ys + 1 else 0

/-- The longest stretch at the front that never descends, or that descends all the time: its length,
and whether it descends. -/
def frontRun (less : α → α → Bool) : List α → Nat × Bool
  | x :: y :: rest =>
    if less y x then (chainLength (fun p q => less q p) y rest + 2, true)
    else (chainLength (fun p q => !less q p) y rest + 2, false)
  | xs => (xs.length, false)

/-- Cuts the first run off. A stretch of `least` elements that is sorted already is one; otherwise the
next elements are, which are sorted at once if `eager`. -/
def nextRun (less : α → α → Bool) (least : Nat) (eager : Bool) (xs : List α) : Run α × List α :=
  let (n, descends) := frontRun less xs
  if least ≤ n then
    (⟨if descends then (xs.take n).reverse else xs.take n, true⟩, xs.drop n)
  else if eager then (⟨smallSort less (xs.take 32), true⟩, xs.drop 32)
  else (⟨xs.take least, false⟩, xs.drop least)

/-- Cuts a list into at most `fuel` runs and a rest. -/
def cutRuns (next : List α → Run α × List α) : Nat → List α → List (Run α)
  | _, [] => []
  | 0, xs => [⟨xs, false⟩]
  | fuel + 1, xs =>
    let (run, rest) := next xs
    run :: cutRuns next fuel rest

/-- One run from two neighbours. -/
def Run.join (less : α → α → Bool) (sort : List α → List α) (l r : Run α) : Run α :=
  if l.sorted || r.sorted then ⟨mergeRuns less (l.settle sort) (r.settle sort), true⟩
  else ⟨l.items ++ r.items, false⟩

/-- The height of the boundary between two neighbouring runs in the tree of merges over a list of a
given size: higher boundaries are merged later. The runs lie between the places `left`, `middle` and
`right`; the height is that of the binary digit in which the middles of the runs first differ, as
fractions of the whole. -/
def boundaryHeight (size left middle right : Nat) : Nat :=
  let scale := (0x4000000000000000 + size - 1) / size
  Nat.log2 ((scale * (left + middle)) ^^^ (scale * (middle + right)))

/-- Joins a run to the waiting runs before it, as long as their boundaries are not higher. -/
def collapse (join : Run α → Run α → Run α) (height : Nat) :
    List (Run α × Nat) → Run α → List (Run α × Nat) × Run α
  | [], run => ([], run)
  | (left, h) :: waiting, run =>
    if h ≤ height then collapse join height waiting (join left run)
    else ((left, h) :: waiting, run)

/-- Joins all runs of a list of a given size. `waiting` holds the runs before the current one, each
with the height of the boundary behind it, the last one first. -/
def joinAll (join : Run α → Run α → Run α) (size : Nat) :
    Nat → List (Run α × Nat) → Run α → List (Run α) → Run α
  | _, waiting, run, [] => waiting.foldl (fun run before => join before.1 run) run
  | start, waiting, run, next :: rest =>
    let middle := start + run.items.length
    let height := boundaryHeight size start middle (middle + next.items.length)
    let (waiting, run) := collapse join height waiting run
    joinAll join size middle ((run, height) :: waiting) next rest

/-- A number near the square root. -/
def nearSqrt (n : Nat) : Nat :=
  let power := Nat.pow 2 ((1 + Nat.log2 n) / 2)
  (power + n / power) / 2

/-- The least length of a stretch that counts as a run by itself. -/
def leastRun (size : Nat) : Nat :=
  if size ≤ 4096 then min (size - size / 2) 64 else nearSqrt size

def sortByRuns (less : α → α → Bool) (sort : List α → List α) (eager : Bool) (xs : List α) :
    List α :=
  match cutRuns (nextRun less (leastRun xs.length) eager) xs.length xs with
  | [] => []
  | run :: rest => (joinAll (Run.join less sort) xs.length 0 [] run rest).settle sort

/-! ## Parting -/

/-- Sorts by parting a list around a pivot, at most `limit` times on the way to any element. `floor`
is the last pivot that nothing here is smaller than; when the new pivot is not larger either, its
equals need no more sorting. -/
def quickSort (less : α → α → Bool) : Nat → Option α → List α → List α
  | 0, _, xs =>
    if xs.length ≤ 32 then smallSort less xs
    else sortByRuns less (insertionSort less) true xs
  | limit + 1, floor, xs =>
    if xs.length ≤ 32 then smallSort less xs
    else
      let place := pivotPlace less xs
      match xs.drop place with
      | [] => insertionSort less xs
      | pivot :: after =>
        let before := xs.take place
        let smaller := before.filter (less · pivot) ++ after.filter (less · pivot)
        if floor.all (less · pivot) && !smaller.isEmpty then
          let others := before.filter (!less · pivot) ++ pivot :: after.filter (!less · pivot)
          quickSort less limit floor smaller ++ quickSort less limit (some pivot) others
        else
          let equals := before.filter (!less pivot ·) ++ pivot :: after.filter (!less pivot ·)
          let larger := before.filter (less pivot ·) ++ after.filter (less pivot ·)
          equals ++ quickSort less limit none larger

/-! ## Sorting -/

/-- Sorts a list; elements of which neither has to stand before the other keep their order. -/
def stableSort (less : α → α → Bool) (xs : List α) : List α :=
  if xs.length ≤ 20 then insertionSort less xs
  else
    let sort (ys : List α) := quickSort less (2 * Nat.log2 ys.length) none ys
    sortByRuns less sort (xs.length ≤ 64) xs

end Olap.Sorting
