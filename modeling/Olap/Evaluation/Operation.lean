import Olap.Evaluation.State
import Olap.Sorting.Stable

/-!
# What operations do

`Operation.run` gives the value of a calculation from the evaluations of its children. The children
are handed over as actions, because some operations evaluate a child many times, in changed
contexts, or not at all.
-/

set_option autoImplicit false

namespace Olap

namespace EvalM

/-! ## Values of a wanted kind -/

def asBool (x : EvalM Value) : EvalM Bool := do lift (← x).toBool

def asInteger (x : EvalM Value) : EvalM (Option Int64) := do lift (← x).toInteger

def asDouble (x : EvalM Value) : EvalM (Option Double) := do lift (← x).toDouble

def asText (x : EvalM Value) : EvalM (Option String) := do lift (← x).toText

def asMember (x : EvalM Value) : EvalM Member := do lift (← x).toMember

def asTuple (x : EvalM Value) : EvalM Row := do lift (← x).toTuple

def asList (x : EvalM Value) : EvalM TupleList := do lift (← x).toList

def asSource (x : EvalM Value) : EvalM TupleSource := do lift (← x).toSource

def asLevel (x : EvalM Value) : EvalM Level := do lift (← x).toLevel

def asHierarchy (x : EvalM Value) : EvalM Hierarchy := do lift (← x).toHierarchy

def asDimension (x : EvalM Value) : EvalM Dimension := do lift (← x).toDimension

/-- The values of several members, evaluated in order. -/
def asMembers : List (EvalM Value) → EvalM (List Member)
  | [] => return []
  | x :: xs => do
    let m ← asMember x
    let ms ← asMembers xs
    return m :: ms

/-! ## Loops over the tuples of a set -/

/-- Runs an action for every tuple of a set, with the tuple in the context, and collects the
results. Each round may be the one to ask whether to go on. -/
def forEachRow {α : Type} (set : TupleSource) (f : Row → EvalM α) : EvalM (List α) := do
  let (_, results) ← set.foldM
    (fun (round, results) r => do
      poll round
      let a ← withRow r (f r)
      return (round + 1, a :: results))
    (0, [])
  return results.reverse

def materialize (set : TupleSource) : EvalM TupleList := do
  let (_, l) ← set.foldM
    (fun (round, l) r => do
      poll round
      return (round + 1, ← lift (TupleList.add l r)))
    (0, .empty set.arity (← resultLimit))
  return l

/-- The tuples of a set that are marked to be kept. -/
def select (set : TupleSource) (keep : List Bool) : EvalM TupleList := do
  let (_, l) ← set.foldM
    (fun (keep, l) r => do
      match keep with
      | true :: keep => return (keep, ← lift (TupleList.add l r))
      | _ => return (keep.tail, l))
    (keep, .empty set.arity (← resultLimit))
  return l

def memberList (members : List Member) : EvalM Value := do
  return .list (← lift (TupleList.ofMembers members (← resultLimit)))

/-- Joins a tuple with every tuple of a list. With the flag for cells that are not empty, tuples
whose cells are empty are left out. -/
def joinRow (nonEmpty : Bool) (left : Row) :
    List Row → Nat × TupleList → EvalM (Nat × TupleList)
  | [], joined => return joined
  | right :: rest, (round, l) => do
    poll round
    let r := left ++ right
    let dropped ← if nonEmpty then withRow r isEmptyCell else pure false
    if dropped then joinRow nonEmpty left rest (round + 1, l)
    else joinRow nonEmpty left rest (round + 1, ← lift (l.add r))

/-- Joins every tuple of one set with every tuple of another. -/
def crossJoin (left right : TupleSource) : EvalM TupleList := do
  let rights := (← materialize right).rows
  let nonEmpty := (← get).nonEmpty
  let (_, l) ← left.foldM (fun joined r => joinRow nonEmpty r rights joined)
    (0, .empty (TupleList.joinedArity left.arity right.arity) (← resultLimit))
  return l

/-- Whether some tuple of a list has a cell that is not empty. -/
def anyFilled : List Row → EvalM Bool
  | [] => return false
  | r :: rs => do
    if ← withRow r isEmptyCell then anyFilled rs else return true

/-! ## Sorting -/

/-- The keys of several members, each evaluated with its member in the context. -/
def ancestorKeys (key : EvalM SortKey) : List Member → EvalM SortPath
  | [] => return []
  | m :: ms => do
    let k ← restoring do
      modify (·.setMember m)
      key
    let path ← ancestorKeys key ms
    return (m.ordinal, k) :: path

/-- The sort path of a tuple. Its own key is evaluated first. -/
def sortPath (mode : SortMode) (key : EvalM SortKey) (r : Row) : EvalM SortPath := do
  let own ← key
  match r with
  | [] => return [(0, own)]
  | leading :: _ =>
    let above ←
      if mode.breaksHierarchy then pure []
      else ancestorKeys key leading.ancestors.reverse
    return above ++ [(leading.ordinal, own)]

/-- Compares sort paths; a sort that breaks the hierarchy looks at the first keys alone. -/
def orderPaths (mode : SortMode) (p q : SortPath) : Ordering :=
  if mode.breaksHierarchy then
    match p, q with
    | (_, k) :: _, (_, l) :: _ => mode.orderKeys k l
    | _, _ => .eq
  else SortPath.order mode p q

/-- Sorts the tuples of a list by keys that are evaluated with each tuple in the context. -/
def sort (mode : SortMode) (l : TupleList) (key : EvalM SortKey) : EvalM TupleList := do
  let paths ← forEachRow (.list l) (sortPath mode key)
  let less (a b : Nat × SortPath) : Bool := orderPaths mode a.2 b.2 == .lt
  let sorted := Sorting.stableSort less ((List.range paths.length).zip paths)
  lift (l.permute (sorted.map Prod.fst))

/-! ## Constructors -/

/-- Adds the value of an element to a set. A member that is missing adds nothing. -/
def addElement (l : TupleList) : Value → EvalM TupleList
  | .member m => lift (l.add [m])
  | .tuple r => lift (l.add r)
  | .list m => lift (l.append m)
  | .null => return l
  | v => lift (v.mismatch "set element")

/-- Evaluates elements one after the other and adds them to a set. -/
def addElements (l : TupleList) : List (EvalM Value) → EvalM TupleList
  | [] => return l
  | x :: xs => do
    let l ← addElement l (← x)
    addElements l xs

/-- The first member whose hierarchy another member before it has, where `seen` are the hierarchies
of members before all of these. -/
def repeatedHierarchy? (seen : List Nat) : Row → Option Member
  | [] => none
  | m :: ms =>
    if seen.contains m.hierarchyOrdinal then some m
    else repeatedHierarchy? (m.hierarchyOrdinal :: seen) ms

/-- A tuple, which holds at most one member of each hierarchy. -/
def tupleOf (r : Row) : EvalM Value :=
  match repeatedHierarchy? [] r with
  | some m =>
    throw (.invalidArgument "()"
      s!"tuple has more than one member of the hierarchy of {m.uniqueName}")
  | none => return .tuple r

/-! ## Catalog objects -/

def hierarchyOf (m : Member) : EvalM Hierarchy := do
  match (← read).cube.hierarchyOf? m with
  | some h => return h
  | none => throw (.internal s!"hierarchy {m.hierarchy} is not part of the cube")

def singleHierarchy (d : Dimension) : EvalM Hierarchy :=
  match d.singleHierarchy? with
  | some h => return h
  | none =>
    throw (.invalidArgument "CurrentMember"
      s!"dimension {d.uniqueName} has more than one hierarchy")

/-- The target depth of descendants of a member. -/
def targetDepth (target : DescendantsTarget) (m : Member) (argument : List (EvalM Value)) :
    EvalM Nat := do
  match target, argument with
  | .level, [x] =>
    let l ← asLevel x
    if l.hierarchy != m.hierarchy then
      throw (.invalidArgument "Descendants"
        s!"level {l.uniqueName} is not in the hierarchy of {m.uniqueName}")
    return l.depth
  | .distance, [x] =>
    let distance := ((← asInteger x).getD 0).toInt
    if distance < 0 then
      throw (.invalidArgument "Descendants" "distance must not be negative")
    return m.depth + distance.toNat
  | _, _ => return m.depth

def drillDown (cube : Cube) (targets : List Member) (recursive : Bool) (round : Nat) :
    List Member → EvalM (List Member)
  | [] => return []
  | m :: ms => do
    poll round
    let rest ← drillDown cube targets recursive (round + 1) ms
    return cube.drillDown targets recursive m ++ rest

/-! ## Kept results -/

/-- What a result is kept under in a context: the flag, and the current members of the hierarchies
with the given ordinals. -/
def cacheKey (address : Address) (ordinals : List Nat) (s : EvalState) : CacheKey :=
  (address, s.nonEmpty, ordinals.filterMap fun o => s.context[o]?.map (·.uniqueName))

/-- Gives the kept result, or else evaluates it and keeps it. -/
def cached (address : Address) (ordinals : List Nat) (x : EvalM Value) : EvalM Value := do
  let key := cacheKey address ordinals (← get)
  match (← get).cache[key]? with
  | some v => return v
  | none =>
    let v ← x
    modify fun s => { s with cache := s.cache.insert key v }
    return v

/-- Makes a conversion of an adapter. -/
def adapt (a : Adapter) (x : EvalM Value) : EvalM Value := do
  match a with
  | .memberToTuple => return .tuple [← asMember x]
  | .memberToSet => memberList [← asMember x]
  | .tupleToSet => do
    let r ← asTuple x
    return .list (← lift ((TupleList.empty r.length (← resultLimit)).add r))
  | .dimensionToHierarchy => return .hierarchy (← singleHierarchy (← asDimension x))
  | .levelToHierarchy => do
    let l ← asLevel x
    return .hierarchy (← liftCatalog ((← read).cube.hierarchy l.hierarchy))
  | .materialize => do
    match ← x with
    | .list l => return .list l
    | v => return .list (← materialize (← lift v.toSource))
  | .mutableCopy => return .list (← asList x)
  | .integerToDouble => return ((← asInteger x).map .ofInt64).elim .null .double

end EvalM

open EvalM in
/-- The value of an operation, from the evaluations of the children. -/
def Operation.run (address : Address) (op : Operation) (children : List (EvalM Value)) :
    EvalM Value := do
  match op, children with
  | constant v, _ => return v
  | parameter name default, _ => return ((← read).parameters.lookup name).getD default
  | sequence, xs => xs.foldlM (fun _ x => x) .null
  | currentValue, _ => currentCell
  | memberValue, xs => do withRow (← asMembers xs) currentCell
  | tupleValue, x :: _ => do withRow (← asTuple x) currentCell
  | tupleValue, [] => throw (.internal "tuple value without tuple")
  | currentMember, x :: _ => return .member (← EvalM.currentMember (← asHierarchy x))
  | currentMember, [] => throw (.internal "current member without hierarchy")
  | adapt a, x :: _ => EvalM.adapt a x
  | adapt _, [] => throw (.internal "conversion without operand")
  | cache ordinals, x :: _ => cached address ordinals x
  | toBoolean, x :: _ => do
    match ← x with
    | .null => return .null
    | v => return .bool (← lift v.toBool)
  | toNumber, x :: _ => return (← asDouble x).elim .null .double
  | toInteger, x :: _ => return (← asInteger x).elim .null .int
  | toText, x :: _ => return (← asText x).elim .null .string
  | hierarchyOf, x :: _ => return .hierarchy (← EvalM.hierarchyOf (← asMember x))
  | dimensionOf, x :: _ => do
    let h ← asHierarchy x
    return .dimension (← liftCatalog ((← read).cube.dimension h.dimension))
  | integerArithmetic op, [x, y] => do
    let a ← asInteger x
    let b ← asInteger y
    match op.operands 0 a b with
    | none => return .null
    | some (a, b) => return (← lift (op.onIntegers a b)).elim .null .int
  | doubleArithmetic op, [x, y] => do
    let a ← asDouble x
    let b ← asDouble y
    return ((op.operands 0 a b).bind fun (a, b) => op.onDoubles a b).elim .null .double
  | integerNegation, x :: _ => do
    match ← asInteger x with
    | none => return .null
    | some a => return .int (← lift (negateInteger a))
  | doubleNegation, x :: _ => return ((← asDouble x).map (- ·)).elim .null .double
  | compareNumbers c, [x, y] => do
    let a ← asDouble x
    let b ← asDouble y
    match a, b with
    | some a, some b => return .bool (c.test (Double.compareTotal a b))
    | _, _ => return .null
  | compareTexts c, [x, y] => do
    let a ← asText x
    let b ← asText y
    match a, b with
    | some a, some b => return .bool (c.test (compare a b))
    | _, _ => return .null
  | conjunction, [x, y] => do
    if ← asBool x then return .bool (← asBool y) else return .bool false
  | disjunction, [x, y] => do
    if ← asBool x then return .bool true else return .bool (← asBool y)
  | negation, x :: _ => return .bool !(← asBool x)
  | choice, [condition, yes, no] => do
    if ← asBool condition then yes else no
  | levelMembers, x :: _ => do
    let l ← asLevel x
    let h ← liftCatalog ((← read).cube.hierarchy l.hierarchy)
    memberList (h.levelMembers l)
  | hierarchyMembers, x :: _ => do memberList (← asHierarchy x).members
  | Operation.children, x :: _ => do
    let m ← asMember x
    memberList ((← read).cube.children m)
  | parent, x :: _ => return ((← asMember x).parent?).elim .null .member
  | descendants target flag, x :: argument => do
    let m ← asMember x
    let depth ← targetDepth target m argument
    memberList ((← read).cube.descendants m depth flag)
  | drilldownMember recursive, [x, y] => do
    let l ← asList x
    let targets ← asList y
    if l.arity ≠ 1 then
      throw (.invalidArgument "DrilldownMember" "only sets of members can be drilled")
    memberList (← EvalM.drillDown (← read).cube targets.members.toList recursive 0
      l.members.toList)
  | crossJoin onDemand, [x, y] => do
    let l ← asSource x
    let r ← asSource y
    if onDemand && !(← get).nonEmpty then return .iterable (.cross l r)
    else return .list (← EvalM.crossJoin l r)
  | filter, [x, condition] => do
    let s ← asSource x
    let keep ← forEachRow s fun _ => asBool condition
    return .list (← select s keep)
  | nonEmpty, [x] => do
    let s ← asSource x
    let keep ← forEachRow s fun _ => return !(← isEmptyCell)
    return .list (← select s keep)
  | nonEmpty, [x, y] => do
    let s ← asSource x
    let others := (← asList y).rows
    let keep ← forEachRow s fun _ => anyFilled others
    return .list (← select s keep)
  | head, x :: argument => do
    let l ← asList x
    let count ←
      match argument with
      | [] => pure 1
      | y :: _ => do pure (((← asInteger y).getD 0).toInt.toNat)
    return .list (if l.size ≤ count then l else l.subList 0 count)
  | count excludeEmpty, x :: _ => do
    let s ← asSource x
    if excludeEmpty then
      let empty ← forEachRow s fun _ => isEmptyCell
      return .int (Int64.ofNat (empty.count false))
    else return .int (Int64.ofNat s.size)
  | order mode byText, [x, y] => do
    let key : EvalM SortKey :=
      if byText then do return .text (← asText y) else do return .number (← asDouble y)
    return .list (← sort mode (← asList x) key)
  | set arity, xs => return .list (← addElements (.empty arity (← resultLimit)) xs)
  | tuple, xs => do tupleOf (← asMembers xs)
  | aggregate a, [x, y] => do
    let s ← asSource x
    let values ← forEachRow s fun _ => asDouble y
    return (a.apply (values.filterMap id)).elim .null .double
  | _, _ => throw (.internal "wrong number of operands")

end Olap
