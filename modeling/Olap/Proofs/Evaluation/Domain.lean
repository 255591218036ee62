import Olap.Evaluation.Operation
import Olap.Proofs.Catalog.Navigation
import Olap.Proofs.Tuple.Rows

/-!
# What values refer to

A `Domain` says which members and hierarchies the values of an evaluation may refer to; a domain is
closed if navigation does not lead out of it. `Yields Q r` says of a result that needs no state that
it satisfies `Q`, or is an error of its own and no signal from the outside. The conversions of values
and the operations on lists of tuples yield values within the domain again.
-/

set_option autoImplicit false

namespace Olap

/-- Whether an error comes from outside the calculation that ends with it: cells have to be loaded,
the execution is stopped, or the nesting is too deep. -/
def CalcError.isSignal : CalcError → Bool
  | cancelled | timeout _ | quantumExceeded | recursionLimit _ => true
  | _ => false

/-- The members and hierarchies that values may refer to. -/
structure Domain where
  member : Member → Prop
  hierarchy : Hierarchy → Prop

namespace Domain

def everything : Domain := ⟨fun _ => True, fun _ => True⟩

def ofCube (c : Cube) : Domain :=
  ⟨fun m => ∃ h ∈ c.hierarchies, m ∈ h.members, fun h => h ∈ c.hierarchies⟩

/-- A domain that navigation in a cube does not lead out of. -/
structure Closed (D : Domain) (c : Cube) : Prop where
  hierarchies : ∀ h ∈ c.hierarchies, D.hierarchy h
  members : ∀ h, D.hierarchy h → ∀ m ∈ h.members, D.member m
  ancestors : ∀ m, D.member m → ∀ a ∈ m.ancestors, D.member a

theorem everything_closed (c : Cube) : everything.Closed c :=
  ⟨fun _ _ => trivial, fun _ _ _ _ => trivial, fun _ _ _ _ => trivial⟩

end Domain

variable {D : Domain} {c : Cube} {α β : Type}

/-! ## Values within a domain -/

def RowWithin (D : Domain) (r : Row) : Prop := ∀ m ∈ r, D.member m

def TupleList.Within (D : Domain) (l : TupleList) : Prop := ∀ m ∈ l.members, D.member m

def TupleSource.Within (D : Domain) (s : TupleSource) : Prop := ∀ r ∈ s.rows, RowWithin D r

def Dimension.Within (D : Domain) (d : Dimension) : Prop := ∀ h ∈ d.hierarchies, D.hierarchy h

/-- A value refers to members and hierarchies of the domain only. -/
def Value.Within (D : Domain) : Value → Prop
  | member m => D.member m
  | tuple r => RowWithin D r
  | list l => l.Within D
  | iterable s => s.Within D
  | hierarchy h => D.hierarchy h
  | dimension d => d.Within D
  | _ => True

theorem RowWithin.append {r q : Row} (hr : RowWithin D r) (hq : RowWithin D q) :
    RowWithin D (r ++ q) := by
  intro m hm
  rcases List.mem_append.1 hm with hm | hm
  · exact hr m hm
  · exact hq m hm

theorem RowWithin.nil : RowWithin D [] := by
  intro m hm
  cases hm

theorem RowWithin.cons {m : Member} {r : Row} (hm : D.member m) (hr : RowWithin D r) :
    RowWithin D (m :: r) :=
  List.forall_mem_cons.2 ⟨hm, hr⟩

theorem TupleList.mem_of_mem_extract {l : TupleList} {i j : Nat} {m : Member}
    (hm : m ∈ l.members.extract i j) : m ∈ l.members := by
  rw [Array.mem_def, Array.toList_extract] at hm
  exact Array.mem_toList_iff.1 (List.mem_of_mem_drop (List.mem_of_mem_take hm))

theorem TupleList.Within.row {l : TupleList} (hl : l.Within D) (i : Nat) : RowWithin D (l.row i) :=
  fun m hm => hl m (mem_of_mem_extract (Array.mem_toList_iff.1 hm))

theorem TupleList.Within.rows {l : TupleList} (hl : l.Within D) {r : Row} (hr : r ∈ l.rows) :
    RowWithin D r := by
  obtain ⟨i, -, rfl⟩ := List.mem_map.1 hr
  exact hl.row i

theorem TupleSource.Within.cross {s t : TupleSource} (hs : s.Within D) (ht : t.Within D) :
    (TupleSource.cross s t).Within D := by
  intro r hr
  obtain ⟨p, hp, hr⟩ := List.mem_flatMap.1 hr
  obtain ⟨q, hq, rfl⟩ := List.mem_map.1 hr
  exact (hs p hp).append (ht q hq)

theorem Value.Within.ofCell (v : Option Double) : (Value.ofCell v).Within D := by
  cases v <;> trivial

/-! ## Results that need no state -/

/-- A result satisfies `Q`, or is an error that is no signal. -/
def Yields (Q : α → Prop) : Except CalcError α → Prop
  | .ok a => Q a
  | .error e => e.isSignal = false

theorem Yields.of_ok {Q : α → Prop} {x : Except CalcError α} (hx : Yields Q x) {a : α}
    (h : x = .ok a) : Q a := by
  rw [h] at hx
  exact hx

theorem Yields.bind {P : α → Prop} {Q : β → Prop} {x : Except CalcError α}
    {f : α → Except CalcError β} (hx : Yields P x) (hf : ∀ a, P a → Yields Q (f a)) :
    Yields Q (x >>= f) := by
  cases x with
  | error e => exact hx
  | ok a => exact hf a hx

theorem Yields.foldlM {P : α → Prop} {f : α → β → Except CalcError α} {l : List β}
    (hf : ∀ a, P a → ∀ b ∈ l, Yields P (f a b)) {a : α} (ha : P a) : Yields P (l.foldlM f a) := by
  induction l generalizing a with
  | nil => exact ha
  | cons b l ih =>
    rw [List.foldlM_cons]
    refine (hf a ha b List.mem_cons_self).bind fun a' ha' => ih (fun a'' h b' hb => ?_) ha'
    exact hf a'' h b' (List.mem_cons_of_mem b hb)

/-! ## Conversions -/

namespace Value

variable {v : Value}

theorem toBool_yields (v : Value) : Yields (fun _ => True) v.toBool := by cases v <;> trivial

theorem toInteger_yields (v : Value) : Yields (fun _ => True) v.toInteger := by cases v <;> trivial

theorem toDouble_yields (v : Value) : Yields (fun _ => True) v.toDouble := by cases v <;> trivial

theorem toText_yields (v : Value) : Yields (fun _ => True) v.toText := by cases v <;> trivial

theorem toLevel_yields (v : Value) : Yields (fun _ => True) v.toLevel := by cases v <;> trivial

theorem toMember_yields (hv : v.Within D) : Yields D.member v.toMember := by
  cases v with
  | member m => exact hv
  | tuple r =>
    match r, hv with
    | [], _ => rfl
    | [m], hv => exact hv m List.mem_cons_self
    | _ :: _ :: _, _ => rfl
  | _ => rfl

theorem toTuple_yields (hv : v.Within D) : Yields (RowWithin D) v.toTuple := by
  cases v with
  | member m => exact RowWithin.cons hv .nil
  | tuple r => exact hv
  | _ => rfl

theorem toList_yields (hv : v.Within D) : Yields (TupleList.Within D) v.toList := by
  cases v with
  | list l => exact hv
  | _ => rfl

theorem toSource_yields (hv : v.Within D) : Yields (TupleSource.Within D) v.toSource := by
  cases v with
  | list l => exact fun r hr => TupleList.Within.rows hv hr
  | iterable s => exact hv
  | _ => rfl

theorem toHierarchy_yields (hv : v.Within D) : Yields D.hierarchy v.toHierarchy := by
  cases v with
  | hierarchy h => exact hv
  | _ => rfl

theorem toDimension_yields (hv : v.Within D) : Yields (Dimension.Within D) v.toDimension := by
  cases v with
  | dimension d => exact hv
  | _ => rfl

end Value

/-! ## Lists of tuples -/

namespace TupleList

theorem within_empty (arity limit : Nat) : (empty arity limit).Within D := by
  intro m hm
  simp [empty] at hm

theorem checkLimit_yields (attempted limit : Nat) :
    Yields (fun _ => True) (checkLimit attempted limit) := by
  unfold checkLimit
  split <;> trivial

theorem add_yields {l : TupleList} {r : Row} (hl : l.Within D) (hr : RowWithin D r) :
    Yields (Within D) (l.add r) := by
  unfold add
  split
  · rfl
  · refine (checkLimit_yields _ _).bind fun _ _ m hm => ?_
    rw [Array.mem_def, Array.appendList_eq_append, Array.toList_appendList] at hm
    rcases List.mem_append.1 hm with hm | hm
    · exact hl m (Array.mem_toList_iff.1 hm)
    · exact hr m hm

theorem ofMembers_yields {ms : List Member} (hms : RowWithin D ms) (limit : Nat) :
    Yields (Within D) (ofMembers ms limit) :=
  (checkLimit_yields _ _).bind fun _ _ m hm => hms m (by simpa using hm)

theorem addAll_within {rs : List Row} (hrs : ∀ r ∈ rs, RowWithin D r) {l : TupleList}
    (hl : l.Within D) :
    (l.addAll rs).1.Within D ∧ ∀ e, (l.addAll rs).2 = some e → e.isSignal = false := by
  induction rs generalizing l with
  | nil => exact ⟨hl, by simp [addAll]⟩
  | cons r rs ih =>
    have hadd := add_yields hl (hrs r List.mem_cons_self)
    rw [addAll]
    cases h : l.add r with
    | ok l' =>
      rw [h] at hadd
      exact ih (fun q hq => hrs q (List.mem_cons_of_mem r hq)) hadd
    | error e =>
      rw [h] at hadd
      refine ⟨hl, ?_⟩
      rintro e' ⟨⟩
      exact hadd

theorem append_yields {l m : TupleList} (hl : l.Within D) (hm : m.Within D) :
    Yields (Within D) (l.append m) := by
  obtain ⟨h, he⟩ := addAll_within (fun r (hr : r ∈ m.rows) => hm.rows hr) hl
  unfold append
  rcases hadd : l.addAll m.rows with ⟨l', _ | e⟩
  · rw [hadd] at h
    exact h
  · rw [hadd] at he
    exact he e rfl

theorem permute_yields {l : TupleList} (hl : l.Within D) (places : List Nat) :
    Yields (Within D) (l.permute places) := by
  refine Yields.foldlM (fun out hout i _ => ?_) (within_empty _ _)
  rcases hr : l.row? i with _ | r
  · rfl
  · refine add_yields hout ?_
    unfold row? at hr
    split at hr
    · cases hr
      exact hl.row i
    · cases hr

theorem Within.subList {l : TupleList} (hl : l.Within D) (start stop : Nat) :
    (l.subList start stop).Within D := by
  exact fun m hm => hl m (mem_of_mem_extract hm)

end TupleList

/-! ## Numbers and the catalog -/

theorem ArithmeticOp.onIntegers_yields (op : ArithmeticOp) (a b : Int64) :
    Yields (fun _ => True) (op.onIntegers a b) := by
  unfold onIntegers
  split
  · trivial
  · split <;> trivial

theorem negateInteger_yields (a : Int64) : Yields (fun _ => True) (negateInteger a) := by
  unfold negateInteger
  split <;> trivial

theorem CalcError.ofCatalog_isSignal (e : CatalogError) : (ofCatalog e).isSignal = false := by
  cases e <;> rfl

namespace Domain.Closed

theorem parent (hD : D.Closed c) {m p : Member} (hm : D.member m) (hp : m.parent? = some p) :
    D.member p := by
  refine hD.ancestors m hm p ?_
  unfold Member.parent? at hp
  split at hp
  · cases hp
  · cases hp
    rw [Member.ancestors, ‹m.lineage = _›, Member.ofLineage]
    exact List.mem_cons_self

theorem children (hD : D.Closed c) (m : Member) : RowWithin D (c.children m) := by
  unfold Cube.children
  rcases h : c.hierarchyOf? m with _ | k
  · exact .nil
  · have hk := Cube.mem_hierarchies_of_hierarchyOf? h
    exact fun n hn => hD.members k (hD.hierarchies k hk) n (k.children_subset_members m hn)

theorem subtree (hD : D.Closed c) {m : Member} (hm : D.member m) :
    RowWithin D (c.subtree m).preorder := by
  intro n hn
  rcases Cube.mem_preorder_subtree hn with rfl | ⟨h, hh, hn⟩
  · exact hm
  · exact hD.members h (hD.hierarchies h hh) n hn

theorem descendants (hD : D.Closed c) {m : Member} (hm : D.member m) (target : Nat)
    (flag : DescendantsFlag) : RowWithin D (c.descendants m target flag) :=
  fun _ hn => hD.subtree hm _ (Tree.descendants_subset target flag _ hn)

theorem drillDown (hD : D.Closed c) (targets : List Member) (recursive : Bool) {m : Member}
    (hm : D.member m) : RowWithin D (c.drillDown targets recursive m) := by
  intro n hn
  refine hD.subtree hm n ?_
  unfold Cube.drillDown at hn
  split at hn
  · exact Tree.drillAll_subset _ _ hn
  · exact Tree.drill_subset _ _ hn

theorem dimension (hD : D.Closed c) {d : Dimension} (hd : d ∈ c.dimensions) : d.Within D :=
  fun h hh => hD.hierarchies h (List.mem_flatMap.2 ⟨d, hd, hh⟩)

end Domain.Closed

end Olap
